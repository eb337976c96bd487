import Vlsmc.Fat16Runs

/-!
# Scans of a directory

`find_dir_entry` looks at the slots of the root directory, or of a chain of clusters, up to the
first end slot. Long name entries have the four lowest attribute bits set, and the test for them
is a test for any of these bits: files that are read-only, hidden or system files are skipped
with them.
-/

set_option autoImplicit false

namespace Vlsmc.DirectoryScans
open Vlsmc.Fat16Layout Vlsmc.Fat16Names Vlsmc.Fat16Volume Vlsmc.Fat16Files
open Vlsmc.Fat16Geometry Vlsmc.Fat16Chains Vlsmc.Fat16Directory Vlsmc.SuccessorChain

/-- The clusters from `c` on, up to a value that ends the loops of the driver. -/
def Walked (v : Volume) (c : ℕ) (cs : List ℕ) : Prop :=
  Linked v.fat (fun x => inChain x = true) (fun x => inChain x = false) c cs

/-- The sectors that a scan goes over. Zero stands for the root directory, and of other numbers
the lower sixteen bits are used. -/
def ScanLbas (v : Volume) (d : ℕ) (L : List ℕ) : Prop :=
  (d = 0 ∧ L = v.bpb.rootLbas) ∨
  (d ≠ 0 ∧ ∃ cs, Walked v (d%65536) cs ∧ L = chainLbas v.bpb cs)

/-- A directory of a mounted volume, all of whose sectors can be read. -/
structure Directory (v : Volume) (d : ℕ) (L : List ℕ) : Prop where
  mounted : v.mounted = true
  lbas : ScanLbas v d L
  readable : ∀ lba ∈ L, lba < v.disk.size

section Clusters

variable {v : Volume} {c d : ℕ} {cs L : List ℕ}

theorem walked_nodup (h : Walked v c cs) : cs.Nodup := by
  apply linked_nodup _ h
  intro x hx
  simp [hx]

/-- A chain that ends visits no cluster twice, so the loops need no more rounds than there are
cluster numbers. -/
theorem walked_length (h : Walked v c cs) : cs.length ≤ 65528 := by
  have hsub : cs ⊆ List.range 65528 := by
    intro x hx
    have hin := linked_live h x hx
    simp only [inChain, Bool.and_eq_true, decide_eq_true_eq] at hin
    exact List.mem_range.mpr hin.2
  simpa using (List.subperm_of_subset (walked_nodup h) hsub).length_le

/-- The walk of the driver over a chain that ends. -/
theorem walk_walked {β : Type*} (body : ℕ → Option β) (h : Walked v c cs) (prev : ℕ) :
    walk v.fat inChain body chainFuel prev c =
      some (match cs.findSome? body with
        | some b => .inl b
        | none => .inr (cs.getLastD prev)) := by
  have hlen := walked_length h
  apply walk_linked inChain body (fun _ hx => hx) (fun _ hx => hx) h
  unfold chainFuel
  omega

/-- In-range chains are walked to their end mark. -/
theorem walked_of_chain (h : FatChain v c cs) : Walked v c cs := by
  induction cs generalizing c with
  | nil => exact isLast_inChain c h
  | cons x cs ih => exact ⟨h.1, inRange_inChain v.bpb x h.2.1, ih h.2.2⟩

theorem scanLbas_of_dir (h : DirLbas v d L) : ScanLbas v d L := by
  have hlt := dirLbas_lt h
  rcases h with ⟨hd, hL⟩ | ⟨h2, t, ht, hL⟩
  · exact Or.inl ⟨hd, hL⟩
  · have hw := walked_of_chain ht
    rw [← Nat.mod_eq_of_lt hlt] at hw
    exact Or.inr ⟨by omega, _, hw, by rwa [Nat.mod_eq_of_lt hlt]⟩

theorem directory_of_dir (hw : Working v) (h : DirLbas v d L) : Directory v d L :=
  ⟨hw.mounted, scanLbas_of_dir h, fun _ hl => dirLbas_readable hw h hl⟩

end Clusters

section Scan

variable {v : Volume} {d : ℕ} {L : List ℕ} (h : Directory v d L)

/-- The slots before the first end slot. -/
def usedSlots (v : Volume) (L : List ℕ) : List Slot :=
  (slotsOf L).takeWhile fun p => ¬ (v.entryAt p).isEnd

theorem usedSlots_not_end {p : Slot} (hp : p ∈ usedSlots v L) : ¬ (v.entryAt p).isEnd := by
  simpa using List.mem_takeWhile_imp hp

/-- What the search compares with the name. -/
def Matches (v : Volume) (name : List UInt8) (p : Slot) : Prop :=
  ¬ (v.entryAt p).isDeleted ∧ (v.entryAt p).attributes &&& attrHiddenMask = 0 ∧
    matchFilename (v.entryAt p) name = true

instance (v : Volume) (name : List UInt8) (p : Slot) : Decidable (Matches v name p) :=
  inferInstanceAs (Decidable (_ ∧ _))

theorem probeAt_matches (name : List UInt8) (p : Slot) :
    probeAt v name p = if (v.entryAt p).isEnd then some none
      else if Matches v name p then some (some p) else none := by
  unfold probeAt Volume.probeEntry Matches
  change (if (v.entryAt p).isEnd then _ else if (v.entryAt p).isDeleted then _
    else if (v.entryAt p).attributes &&& attrHiddenMask ≠ 0 then _
    else if matchFilename (v.entryAt p) name = true then _ else _) = _
  by_cases hend : (v.entryAt p).isEnd
  · rw [if_pos hend, if_pos hend]
  · by_cases hdel : (v.entryAt p).isDeleted <;>
      by_cases hmask : (v.entryAt p).attributes &&& attrHiddenMask = 0 <;>
      by_cases hname : matchFilename (v.entryAt p) name = true <;>
      simp [hend, hdel, hmask, hname]

/-- The scan stops at the first end slot or at the first slot that matches. -/
theorem findSome?_probeAt (name : List UInt8) (l : List Slot) :
    (l.findSome? (probeAt v name)).getD none =
      (l.takeWhile fun p => ¬ (v.entryAt p).isEnd).find? fun p => Matches v name p := by
  induction l with
  | nil => rfl
  | cons p l ih =>
    rw [List.findSome?_cons, probeAt_matches]
    by_cases hend : (v.entryAt p).isEnd
    · rw [if_pos hend, List.takeWhile_cons_of_neg (by simp [hend])]
      rfl
    · rw [if_neg hend, List.takeWhile_cons_of_pos (by simp [hend])]
      by_cases hm : Matches v name p
      · rw [if_pos hm, List.find?_cons_of_pos (by simp [hm])]
        rfl
      · rw [if_neg hm, List.find?_cons_of_neg (by simp [hm])]
        exact ih

include h in
theorem findDirEntry_scan (name : List UInt8) :
    v.findDirEntry d name = some ((usedSlots v L).find? fun p => Matches v name p) := by
  have hm : ¬ v.mounted = false := by simp [h.mounted]
  rw [usedSlots, ← findSome?_probeAt, ← probeSector_slots v name L h.readable, Volume.findDirEntry,
    if_neg hm]
  rcases h.lbas with ⟨rfl, rfl⟩ | ⟨hd, cs, hcs, rfl⟩
  · rw [if_pos rfl]
  · rw [if_neg hd, walk_walked _ hcs, ← findSome?_flatMap, chainLbas]
    cases (cs.flatMap v.bpb.clusterLbas).findSome? (v.probeSector name) <;> rfl

end Scan

section Complete

/-- `FAT_ATTR_LFN`, all four bits of it for an entry that holds a part of a long name. -/
def attrLfn : UInt8 := 0x0F

def attrVolumeId : UInt8 := 0x08

/-- `FAT_ATTR_READONLY | FAT_ATTR_HIDDEN | FAT_ATTR_SYSTEM`. -/
def attrReadonlyHiddenSystem : UInt8 := 0x07

/-- The entry of a file or directory with the name. -/
def Names (v : Volume) (name : List UInt8) (p : Slot) : Prop :=
  ¬ (v.entryAt p).isDeleted ∧ (v.entryAt p).attributes ≠ attrLfn ∧
    (v.entryAt p).attributes &&& attrVolumeId = 0 ∧ entryName (v.entryAt p) = name.map upper

instance (v : Volume) (name : List UInt8) (p : Slot) : Decidable (Names v name p) :=
  inferInstanceAs (Decidable (_ ∧ _))

/-- The first slot with the name that is in use. -/
def firstNamed (v : Volume) (L : List ℕ) (name : List UInt8) : Option Slot :=
  (usedSlots v L).find? fun p => Names v name p

theorem attributes_masks (a : UInt8) : a &&& attrHiddenMask = 0 ↔
    a ≠ attrLfn ∧ a &&& attrVolumeId = 0 ∧ a &&& attrReadonlyHiddenSystem = 0 := by
  have hall : ∀ n < 256, (UInt8.ofNat n &&& attrHiddenMask = 0 ↔ UInt8.ofNat n ≠ attrLfn ∧
      UInt8.ofNat n &&& attrVolumeId = 0 ∧ UInt8.ofNat n &&& attrReadonlyHiddenSystem = 0) := by
    decide +kernel
  simpa using hall a.toNat a.toNat_lt

theorem matches_names {v : Volume} {name : List UInt8} {p : Slot} : Matches v name p ↔
    Names v name p ∧ (v.entryAt p).attributes &&& attrReadonlyHiddenSystem = 0 := by
  unfold Matches Names
  rw [attributes_masks, matchFilename_iff]
  change _ ↔ (_ ∧ _ ∧ _ ∧ (decodedName (v.entryAt p)).map upper = _) ∧ _
  tauto

/-- Searching for less finds the same exactly when what is found for more is also found. -/
theorem find?_narrower {α : Type*} {P Q : α → Bool} (hPQ : ∀ a, P a = true → Q a = true)
    (l : List α) : l.find? P = l.find? Q ↔ ∀ a ∈ l.find? Q, P a = true := by
  induction l with
  | nil => simp
  | cons a l ih =>
    by_cases hQ : Q a = true
    · rw [List.find?_cons_of_pos (p := Q) hQ]
      by_cases hP : P a = true
      · rw [List.find?_cons_of_pos (p := P) hP]
        simp [hP]
      · rw [List.find?_cons_of_neg (p := P) hP]
        refine iff_of_false (fun h => hP (List.find?_some h)) fun h => hP (h a rfl)
    · rw [List.find?_cons_of_neg (p := Q) hQ, List.find?_cons_of_neg (p := P) fun hP => hQ (hPQ a hP)]
      exact ih

/-- The lookup finds the first slot with the name, or that there is none, unless that slot has
one of the attributes read-only, hidden and system. -/
theorem lookup_complete_iff {v : Volume} {d : ℕ} {L : List ℕ} (h : Directory v d L)
    (name : List UInt8) :
    v.findDirEntry d name = some (firstNamed v L name) ↔
      ∀ p ∈ firstNamed v L name, (v.entryAt p).attributes &&& attrReadonlyHiddenSystem = 0 := by
  rw [findDirEntry_scan h, Option.some.injEq, firstNamed, find?_narrower]
  · constructor
    · intro hall p hp
      exact (matches_names.mp (by simpa using hall p hp)).2
    · intro hall p hp
      have hn : Names v name p := by simpa using List.find?_some hp
      simpa using matches_names.mpr ⟨hn, hall p hp⟩
  · intro p hp
    simpa using (matches_names.mp (by simpa using hp)).1

/-- A volume whose root directory holds the empty file `A` with the given attributes. -/
def rootFile (attributes : UInt8) : Volume :=
  Fat16Runs.blank.updateEntry (2, 0) (freshEntry attributes [0x41] 0 0 ⟨0, 0⟩)

theorem rootFile_directory (attributes : UInt8) :
    Directory (rootFile attributes) 0 (rootFile attributes).bpb.rootLbas := by
  refine ⟨rfl, Or.inl ⟨rfl, rfl⟩, ?_⟩
  intro lba hl
  rw [mem_rootLbas] at hl
  have hend : (rootFile attributes).bpb.dataStartLba = 3 :=
    (by decide : Fat16Runs.blank.bpb.dataStartLba = 3)
  have hsize : (rootFile attributes).disk.size = 300 := rfl
  omega

theorem lookup_complete_archive :
    (rootFile attrArchive).findDirEntry 0 [0x61] =
        some (firstNamed (rootFile attrArchive) (rootFile attrArchive).bpb.rootLbas [0x61]) ↔
      ∀ p ∈ firstNamed (rootFile attrArchive) (rootFile attrArchive).bpb.rootLbas [0x61],
        ((rootFile attrArchive).entryAt p).attributes &&& attrReadonlyHiddenSystem = 0 :=
  lookup_complete_iff (rootFile_directory attrArchive) [0x61]

/-- A read-only file is not found. -/
theorem readonly_skipped : Directory (rootFile 0x01) 0 (rootFile 0x01).bpb.rootLbas ∧
    firstNamed (rootFile 0x01) (rootFile 0x01).bpb.rootLbas [0x41] = some (2, 0) ∧
    (rootFile 0x01).findDirEntry 0 [0x41] = some none :=
  ⟨rootFile_directory 0x01, by decide +kernel, by decide +kernel⟩

end Complete

end Vlsmc.DirectoryScans
