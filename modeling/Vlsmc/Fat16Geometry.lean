import Vlsmc.Fat16Volume
import Mathlib.Data.List.Flatten

/-!
# Regions of the disk

The table copies, the root directory and the data clusters occupy consecutive,
disjoint ranges of sectors, and no sector number of an allocated cluster wraps
around 32 bits. A batch of writes is described by what every sector holds
afterwards.
-/

set_option autoImplicit false

namespace Vlsmc.Fat16Geometry
open Vlsmc.Fat16Layout Vlsmc.Fat16Volume
open Vlsmc.Words

/-- Nested loops that return early are one loop over the concatenated ranges. -/
theorem findSome?_flatMap {α β γ : Type*} (l : List α) (f : α → List β) (g : β → Option γ) :
    (l.flatMap f).findSome? g = l.findSome? (fun a => (f a).findSome? g) := by
  induction l with
  | nil => rfl
  | cons a l ih =>
    rw [List.flatMap_cons, List.findSome?_append, List.findSome?_cons, ih]
    cases (f a).findSome? g <;> rfl

section Writes

@[simp] theorem write_size (d : Disk) (lba : ℕ) (s : Sector) :
    (d.write lba s).size = d.size := by
  unfold Disk.write
  split <;> rfl

theorem write_data (d : Disk) (lba : ℕ) (s : Sector) (h : lba < d.size) (l : ℕ) :
    (d.write lba s).data l = if l = lba then s else d.data l := by
  simp [Disk.write, h]

theorem write_other (d : Disk) (lba : ℕ) (s : Sector) (l : ℕ) (h : l ≠ lba) :
    (d.write lba s).data l = d.data l := by
  unfold Disk.write
  split <;> simp [h]

theorem load_eq (d : Disk) (lba : ℕ) (h : lba < d.size) : d.load lba = d.data lba := by
  simp [Disk.load, Disk.read, h]

@[simp] theorem writeAll_size (d : Disk) (ws : List (ℕ × Sector)) :
    (d.writeAll ws).size = d.size := by
  induction ws generalizing d with
  | nil => rfl
  | cons w ws ih => rw [Disk.writeAll, ih, write_size]

theorem writeAll_other (d : Disk) (ws : List (ℕ × Sector)) (l : ℕ)
    (h : ∀ w ∈ ws, w.1 ≠ l) : (d.writeAll ws).data l = d.data l := by
  induction ws generalizing d with
  | nil => rfl
  | cons w ws ih =>
    rw [Disk.writeAll, ih _ (fun x hx => h x (by simp [hx]))]
    exact write_other d w.1 w.2 l (h w (by simp)).symm

/-- A sector that every write of the batch fills in the same way holds that value. -/
theorem writeAll_same (d : Disk) (ws : List (ℕ × Sector)) (l : ℕ) (s : Sector)
    (hl : l < d.size) (h : ∀ w ∈ ws, w.1 = l → w.2 = s)
    (hs : d.data l = s ∨ ∃ w ∈ ws, w.1 = l) : (d.writeAll ws).data l = s := by
  induction ws generalizing d with
  | nil => simpa [Disk.writeAll] using hs
  | cons w ws ih =>
    rw [Disk.writeAll]
    have hrest : ∀ x ∈ ws, x.1 = l → x.2 = s := fun x hx => h x (by simp [hx])
    apply ih (d.write w.1 w.2) (by simpa using hl) hrest
    by_cases hw : w.1 = l
    · left
      rw [write_data d w.1 w.2 (by rw [hw]; exact hl), hw, if_pos rfl]
      exact h w (by simp) hw
    · rcases hs with hs | ⟨x, hx, hxl⟩
      · left
        rw [write_other d w.1 w.2 l (Ne.symm hw)]
        exact hs
      · rcases List.mem_cons.mp hx with rfl | hx
        · exact absurd hxl hw
        · exact Or.inr ⟨x, hx, hxl⟩

end Writes

section Regions

variable (b : Bpb)

theorem spc_lt : b.spc < 256 := b.sectorsPerCluster.toNat_lt

theorem total_le : b.total ≤ 32768 := Nat.min_le_right _ _

theorem dataStart_lt : b.dataStartLba < 16850000 := by
  have hr := b.reservedSectors.toNat_lt
  have hn : b.numFats.toNat < 256 := b.numFats.toNat_lt
  have hf : b.fatSize16.toNat < 65536 := b.fatSize16.toNat_lt
  have he := b.rootEntryCount.toNat_lt
  have hm : b.numFats.toNat*b.fatSize16.toNat ≤ 255*65535 :=
    Nat.mul_le_mul (by omega) (by omega)
  simp only [Bpb.dataStartLba, Bpb.rootDirLba, Bpb.fatStartLba, Bpb.fats, Bpb.fatSectors,
    Bpb.rootDirSectors]
  omega

/-- Offset of a cluster in the data region. -/
def offset (c : ℕ) : ℕ := (c-2)*b.spc

theorem offset_le {c : ℕ} (hc : c < b.total) : offset b c+b.spc ≤ 32766*255 := by
  have ht := total_le b
  have hs := spc_lt b
  have h : (c-2+1)*b.spc ≤ 32766*255 := Nat.mul_le_mul (by omega) (by omega)
  have he : (c-2+1)*b.spc = (c-2)*b.spc+b.spc := by ring
  unfold offset
  omega

theorem offset_lt {c c' : ℕ} (h2 : 2 ≤ c) (h : c < c') :
    offset b c+b.spc ≤ offset b c' := by
  have hm : (c-2+1)*b.spc ≤ (c'-2)*b.spc := Nat.mul_le_mul_right _ (by omega)
  have he : (c-2+1)*b.spc = (c-2)*b.spc+b.spc := by ring
  unfold offset
  omega

/-- Cluster numbers have 16 bits, and the sectors of any of them fit into 32 bits. -/
theorem offset_le_wide {c : ℕ} (hc : c < 65536) : offset b c+b.spc ≤ 65536*255 := by
  have hs := spc_lt b
  have h : (c-2+1)*b.spc ≤ 65536*255 := Nat.mul_le_mul (by omega) (by omega)
  have he : (c-2+1)*b.spc = (c-2)*b.spc+b.spc := by ring
  unfold offset
  omega

theorem clusterToLba_wide {c : ℕ} (h2 : 2 ≤ c) (hc : c < 65536) :
    b.clusterToLba c = b.dataStartLba+offset b c := by
  have hu : u32 (c+4294967294) = c-2 := by
    unfold u32
    omega
  have ho := offset_le_wide b hc
  have hd := dataStart_lt b
  unfold offset at *
  rw [Bpb.clusterToLba, hu, u32]
  omega

theorem mem_clusterLbas_wide {c lba : ℕ} (h2 : 2 ≤ c) (hc : c < 65536) :
    lba ∈ b.clusterLbas c ↔
      b.dataStartLba+offset b c ≤ lba ∧ lba < b.dataStartLba+offset b c+b.spc := by
  have ho := offset_le_wide b hc
  have hd := dataStart_lt b
  simp only [Bpb.clusterLbas, clusterToLba_wide b h2 hc, List.mem_map, List.mem_range, u32]
  constructor
  · rintro ⟨s, hs, rfl⟩
    omega
  · rintro ⟨hl, hu⟩
    exact ⟨lba-(b.dataStartLba+offset b c), by omega, by omega⟩

theorem lt_wide {c : ℕ} (hc : c < b.total) : c < 65536 :=
  lt_of_lt_of_le hc ((total_le b).trans (by decide))

theorem clusterToLba_eq {c : ℕ} (h2 : 2 ≤ c) (hc : c < b.total) :
    b.clusterToLba c = b.dataStartLba+offset b c := clusterToLba_wide b h2 (lt_wide b hc)

theorem mem_clusterLbas {c lba : ℕ} (h2 : 2 ≤ c) (hc : c < b.total) :
    lba ∈ b.clusterLbas c ↔
      b.dataStartLba+offset b c ≤ lba ∧ lba < b.dataStartLba+offset b c+b.spc :=
  mem_clusterLbas_wide b h2 (lt_wide b hc)

theorem clusterLbas_eq {c : ℕ} (h2 : 2 ≤ c) (hc : c < b.total) :
    b.clusterLbas c = (List.range b.spc).map (b.dataStartLba+offset b c+·) := by
  have ho := offset_le b hc
  have hd := dataStart_lt b
  apply List.map_congr_left
  intro s hs
  have := List.mem_range.mp hs
  rw [clusterToLba_eq b h2 hc, u32]
  omega

theorem clusterLbas_nodup {c : ℕ} (h2 : 2 ≤ c) (hc : c < b.total) :
    (b.clusterLbas c).Nodup := by
  rw [clusterLbas_eq b h2 hc]
  exact List.nodup_range.map (fun x y h => by simpa using h)

theorem clusterLbas_disjoint_wide {c c' : ℕ} (h2 : 2 ≤ c) (hc : c < 65536) (h2' : 2 ≤ c')
    (hc' : c' < 65536) (h : c ≠ c') : (b.clusterLbas c).Disjoint (b.clusterLbas c') := by
  intro lba hl hl'
  rw [mem_clusterLbas_wide b h2 hc] at hl
  rw [mem_clusterLbas_wide b h2' hc'] at hl'
  rcases Nat.lt_or_gt_of_ne h with hlt | hlt
  · have := offset_lt b h2 hlt
    omega
  · have := offset_lt b h2' hlt
    omega

theorem clusterLbas_disjoint {c c' : ℕ} (h2 : 2 ≤ c) (hc : c < b.total) (h2' : 2 ≤ c')
    (hc' : c' < b.total) (h : c ≠ c') : (b.clusterLbas c).Disjoint (b.clusterLbas c') :=
  clusterLbas_disjoint_wide b h2 (lt_wide b hc) h2' (lt_wide b hc') h

theorem clusterLbas_length (c : ℕ) : (b.clusterLbas c).length = b.spc := by
  simp [Bpb.clusterLbas]

theorem mem_rootLbas {lba : ℕ} :
    lba ∈ b.rootLbas ↔ b.rootDirLba ≤ lba ∧ lba < b.dataStartLba := by
  simp only [Bpb.rootLbas, Bpb.dataStartLba, List.mem_map, List.mem_range]
  constructor
  · rintro ⟨s, hs, rfl⟩
    omega
  · rintro ⟨hl, hu⟩
    exact ⟨lba-b.rootDirLba, by omega, by omega⟩

theorem rootLbas_nodup : b.rootLbas.Nodup :=
  List.nodup_range.map (fun x y h => by simpa using h)

/-- The sectors of a list of clusters. -/
def chainLbas (cs : List ℕ) : List ℕ := cs.flatMap b.clusterLbas

theorem chainLbas_nodup (cs : List ℕ) (hn : cs.Nodup)
    (hr : ∀ c ∈ cs, 2 ≤ c ∧ c < b.total) : (chainLbas b cs).Nodup := by
  refine List.nodup_flatMap.mpr ⟨fun c hc => clusterLbas_nodup b (hr c hc).1 (hr c hc).2, ?_⟩
  refine hn.imp_of_mem (fun {x y} hx hy hxy => ?_)
  exact clusterLbas_disjoint b (hr x hx).1 (hr x hx).2 (hr y hy).1 (hr y hy).2 hxy

theorem chainLbas_length (cs : List ℕ) : (chainLbas b cs).length = cs.length*b.spc := by
  induction cs with
  | nil => simp [chainLbas]
  | cons c cs ih =>
    rw [chainLbas, List.flatMap_cons, List.length_append, clusterLbas_length]
    rw [show (cs.flatMap b.clusterLbas).length = cs.length*b.spc from ih, List.length_cons]
    ring

theorem chainLbas_append (cs ds : List ℕ) :
    chainLbas b (cs++ds) = chainLbas b cs++chainLbas b ds := by
  simp [chainLbas]

/-- The sectors that hold the copies of the table. -/
def fatRegion (lba : ℕ) : Prop := b.fatStartLba ≤ lba ∧ lba < b.rootDirLba

theorem fatRegion_not_root {lba : ℕ} (h : lba ∈ b.rootLbas) : ¬ fatRegion b lba := by
  rw [mem_rootLbas] at h
  unfold fatRegion
  omega

theorem fatRegion_not_cluster_wide {c lba : ℕ} (h2 : 2 ≤ c) (hc : c < 65536)
    (h : lba ∈ b.clusterLbas c) : ¬ fatRegion b lba := by
  rw [mem_clusterLbas_wide b h2 hc] at h
  have : b.rootDirLba ≤ b.dataStartLba := Nat.le_add_right _ _
  unfold fatRegion
  omega

theorem fatRegion_not_cluster {c lba : ℕ} (h2 : 2 ≤ c) (hc : c < b.total)
    (h : lba ∈ b.clusterLbas c) : ¬ fatRegion b lba :=
  fatRegion_not_cluster_wide b h2 (lt_wide b hc) h

theorem root_not_cluster {c lba : ℕ} (h2 : 2 ≤ c) (hc : c < b.total)
    (h : lba ∈ b.clusterLbas c) : lba ∉ b.rootLbas := by
  rw [mem_clusterLbas b h2 hc] at h
  rw [mem_rootLbas]
  omega

/-- The end of the last cluster that has a table entry. -/
def dataEnd : ℕ := b.dataStartLba+(b.total-2)*b.spc

theorem cluster_lt_dataEnd {c lba : ℕ} (h2 : 2 ≤ c) (hc : c < b.total)
    (h : lba ∈ b.clusterLbas c) : lba < dataEnd b := by
  rw [mem_clusterLbas b h2 hc] at h
  have hm : (c-2+1)*b.spc ≤ (b.total-2)*b.spc := Nat.mul_le_mul_right _ (by omega)
  have he : (c-2+1)*b.spc = (c-2)*b.spc+b.spc := by ring
  unfold offset at h
  unfold dataEnd
  omega

theorem root_lt_dataEnd {lba : ℕ} (h : lba ∈ b.rootLbas) : lba < dataEnd b := by
  rw [mem_rootLbas] at h
  unfold dataEnd
  omega

theorem fat_lt_dataEnd {lba : ℕ} (h : fatRegion b lba) : lba < dataEnd b := by
  have : b.rootDirLba ≤ b.dataStartLba := Nat.le_add_right _ _
  unfold fatRegion at h
  unfold dataEnd
  omega

end Regions

end Vlsmc.Fat16Geometry
