import Vlsmc.Fat16Chains
import Mathlib.Logic.Relation

/-!
# Directories as lists of slots

A directory is the list of slots of its sectors: the root region, or the
sectors of its cluster chain. On a readable directory both searches of the
driver are searches in that list. A volume is sound when every entry reachable
from the root has its own chain, and every reachable directory is terminated
and free of duplicate names.
-/

set_option autoImplicit false

namespace Vlsmc.Fat16Directory
open Vlsmc.Fat16Layout Vlsmc.Fat16Names Vlsmc.Fat16Volume Vlsmc.Fat16Geometry
open Vlsmc.Fat16Chains Vlsmc.SuccessorChain

def slotsOf (L : List ℕ) : List Slot :=
  L.flatMap fun lba => (List.range entriesPerSector).map fun i => (lba, i)

/-- The sectors of a directory: the root is zero, others start at a cluster. -/
def DirLbas (v : Volume) (d : ℕ) (L : List ℕ) : Prop :=
  (d = 0 ∧ L = v.bpb.rootLbas) ∨
  (2 ≤ d ∧ ∃ t, FatChain v d (d::t) ∧ L = chainLbas v.bpb (d::t))

def InDir (v : Volume) (d : ℕ) (p : Slot) : Prop := ∃ L, DirLbas v d L ∧ p ∈ slotsOf L

def VisibleAt (v : Volume) (d : ℕ) (p : Slot) : Prop := InDir v d p ∧ Visible (v.entryAt p)

/-- A visible entry of `d` is the directory that starts at `d'`. -/
def Child (v : Volume) (d d' : ℕ) : Prop :=
  ∃ p, VisibleAt v d p ∧ (v.entryAt p).isDirectory ∧ 2 ≤ d' ∧ (v.entryAt p).cluster = d'

def Reachable (v : Volume) : ℕ → Prop := Relation.ReflTransGen (Child v) 0

/-- An end slot is followed by end slots only. -/
def Ended (v : Volume) (L : List ℕ) : Prop :=
  (slotsOf L).Pairwise fun p q => (v.entryAt p).isEnd → (v.entryAt q).isEnd

structure Sound (v : Volume) : Prop where
  chains : ∀ d p, Reachable v d → VisibleAt v d p → 2 ≤ (v.entryAt p).cluster →
    ∃ t, FatChain v (v.entryAt p).cluster ((v.entryAt p).cluster::t)
  disjoint : ∀ d p d' p' l l', Reachable v d → VisibleAt v d p → Reachable v d' →
    VisibleAt v d' p' → p ≠ p' → FatChain v (v.entryAt p).cluster l →
    FatChain v (v.entryAt p').cluster l' → l.Disjoint l'
  ended : ∀ d L, Reachable v d → DirLbas v d L → Ended v L
  names : ∀ d p q, Reachable v d → VisibleAt v d p → VisibleAt v d q →
    entryName (v.entryAt p) = entryName (v.entryAt q) → p = q

section Slots

theorem mem_slotsOf {L : List ℕ} {p : Slot} :
    p ∈ slotsOf L ↔ p.1 ∈ L ∧ p.2 < entriesPerSector := by
  obtain ⟨lba, i⟩ := p
  simp only [slotsOf, List.mem_flatMap, List.mem_map, List.mem_range, Prod.mk.injEq]
  constructor
  · rintro ⟨a, ha, j, hj, rfl, rfl⟩
    exact ⟨ha, hj⟩
  · rintro ⟨hl, hi⟩
    exact ⟨lba, hl, i, hi, rfl, rfl⟩

theorem slotsOf_append (L M : List ℕ) : slotsOf (L++M) = slotsOf L++slotsOf M := by
  simp [slotsOf]

theorem slotsOf_nodup {L : List ℕ} (h : L.Nodup) : (slotsOf L).Nodup := by
  refine List.nodup_flatMap.mpr ⟨fun lba _ => ?_, h.imp fun {a b} hab => ?_⟩
  · exact List.nodup_range.map fun i j hij => by simpa using hij
  · intro p hp hq
    simp only [List.mem_map] at hp hq
    obtain ⟨i, -, rfl⟩ := hp
    obtain ⟨j, -, hj⟩ := hq
    exact hab (by simpa using (congrArg Prod.fst hj).symm)

end Slots

section Lbas

variable {v : Volume} {d : ℕ} {L : List ℕ}

theorem dirLbas_nodup (h : DirLbas v d L) : L.Nodup := by
  rcases h with ⟨-, rfl⟩ | ⟨-, t, ht, rfl⟩
  · exact rootLbas_nodup v.bpb
  · exact chainLbas_nodup v.bpb _ (fatChain_nodup ht) (fatChain_range ht)

theorem dirLbas_unique {M : List ℕ} (hL : DirLbas v d L) (hM : DirLbas v d M) : L = M := by
  rcases hL with ⟨rfl, rfl⟩ | ⟨hd, t, ht, rfl⟩
  · rcases hM with ⟨-, rfl⟩ | ⟨hd, -⟩
    · rfl
    · omega
  · rcases hM with ⟨rfl, -⟩ | ⟨-, u, hu, rfl⟩
    · omega
    · rw [fatChain_unique ht hu]

/-- The sectors of a directory lie in the root region or in its clusters. -/
theorem dirLbas_mem (h : DirLbas v d L) {lba : ℕ} (hl : lba ∈ L) :
    lba ∈ v.bpb.rootLbas ∨ ∃ c, InRange v.bpb c ∧ lba ∈ v.bpb.clusterLbas c := by
  rcases h with ⟨-, rfl⟩ | ⟨-, t, ht, rfl⟩
  · exact Or.inl hl
  · obtain ⟨c, hc, hlba⟩ := List.mem_flatMap.mp hl
    exact Or.inr ⟨c, fatChain_range ht c hc, hlba⟩

theorem dirLbas_not_fat (h : DirLbas v d L) {lba : ℕ} (hl : lba ∈ L) :
    ¬ fatRegion v.bpb lba := by
  rcases dirLbas_mem h hl with hr | ⟨c, hc, hlba⟩
  · exact fatRegion_not_root v.bpb hr
  · exact fatRegion_not_cluster v.bpb hc.1 hc.2 hlba

theorem dirLbas_readable (hw : Working v) (h : DirLbas v d L) {lba : ℕ} (hl : lba ∈ L) :
    lba < v.disk.size := by
  refine lt_of_lt_of_le ?_ hw.accepts
  rcases dirLbas_mem h hl with hr | ⟨c, hc, hlba⟩
  · exact root_lt_dataEnd v.bpb hr
  · exact cluster_lt_dataEnd v.bpb hc.1 hc.2 hlba

theorem inDir_readable (hw : Working v) {p : Slot} (h : InDir v d p) : p.1 < v.disk.size := by
  obtain ⟨L, hL, hp⟩ := h
  exact dirLbas_readable hw hL (mem_slotsOf.mp hp).1

theorem loadEntry_eq (hw : Working v) {p : Slot} (h : InDir v d p) :
    v.loadEntry p = v.entryAt p := by
  rw [Volume.loadEntry, load_eq _ _ (inDir_readable hw h), Volume.entryAt]

theorem dirLbas_lt (h : DirLbas v d L) : d < 65536 := by
  rcases h with ⟨rfl, -⟩ | ⟨-, t, ht, -⟩
  · decide
  · have := (fatChain_range ht d (by simp)).2
    have := total_le v.bpb
    omega

/-- Every directory reachable in a sound volume has its list of sectors. -/
theorem reachable_lbas (hs : Sound v) (h : Reachable v d) : ∃ L, DirLbas v d L := by
  rcases Relation.ReflTransGen.cases_tail h with rfl | ⟨d0, h0, p, hp, -, h2, rfl⟩
  · exact ⟨_, Or.inl ⟨rfl, rfl⟩⟩
  · obtain ⟨t, ht⟩ := hs.chains d0 p h0 hp h2
    exact ⟨_, Or.inr ⟨h2, t, ht, rfl⟩⟩

end Lbas

section Search

variable (v : Volume)

def probeAt (name : List UInt8) (p : Slot) : Option (Option Slot) :=
  Volume.probeEntry name (v.disk.data p.1) p.1 p.2

def freeAt (p : Slot) : Option Slot := Volume.freeEntry (v.disk.data p.1) p.1 p.2

theorem probeSector_slots (name : List UInt8) (L : List ℕ) (h : ∀ lba ∈ L, lba < v.disk.size) :
    L.findSome? (v.probeSector name) = (slotsOf L).findSome? (probeAt v name) := by
  rw [slotsOf, findSome?_flatMap]
  induction L with
  | nil => rfl
  | cons lba L ih =>
    have hread : v.probeSector name lba =
        ((List.range entriesPerSector).map fun i => (lba, i)).findSome? (probeAt v name) := by
      simp only [Volume.probeSector, Disk.read, h lba (by simp), if_true, List.findSome?_map]
      rfl
    rw [List.findSome?_cons, List.findSome?_cons, hread, ih fun l hl => h l (by simp [hl])]

theorem freeInSector_slots (L : List ℕ) (h : ∀ lba ∈ L, lba < v.disk.size) :
    L.findSome? v.freeInSector = (slotsOf L).findSome? (freeAt v) := by
  rw [slotsOf, findSome?_flatMap]
  induction L with
  | nil => rfl
  | cons lba L ih =>
    have hread : v.freeInSector lba =
        ((List.range entriesPerSector).map fun i => (lba, i)).findSome? (freeAt v) := by
      simp only [Volume.freeInSector, Disk.read, h lba (by simp), if_true, List.findSome?_map]
      rfl
    rw [List.findSome?_cons, List.findSome?_cons, hread, ih fun l hl => h l (by simp [hl])]

variable {v} {d : ℕ} {L : List ℕ}

theorem findDirEntry_slots (hw : Working v) (hL : DirLbas v d L) (name : List UInt8) :
    v.findDirEntry d name = some (((slotsOf L).findSome? (probeAt v name)).getD none) := by
  have hread : ∀ lba ∈ L, lba < v.disk.size := fun lba hl => dirLbas_readable hw hL hl
  have hlt := dirLbas_lt hL
  rw [← probeSector_slots v name L hread]
  rcases hL with ⟨rfl, rfl⟩ | ⟨hd, t, ht, rfl⟩
  · simp [Volume.findDirEntry, hw.mounted]
  · have hlen := fatChain_length ht
    have hwalk := walk_linked inChain
      (fun c => (v.bpb.clusterLbas c).findSome? (v.probeSector name))
      (inRange_inChain v.bpb) isLast_inChain ht chainFuel (by unfold chainFuel; omega) 0
    rw [← findSome?_flatMap] at hwalk
    rw [Volume.findDirEntry, if_neg (by simp [hw.mounted]), if_neg (by omega),
      Nat.mod_eq_of_lt hlt, hwalk, chainLbas]
    cases ((d::t).flatMap v.bpb.clusterLbas).findSome? (v.probeSector name) <;> rfl

theorem findFreeDirEntry_root (hw : Working v) :
    v.findFreeDirEntry 0 = some ((slotsOf v.bpb.rootLbas).findSome? (freeAt v), v) := by
  have hread : ∀ lba ∈ v.bpb.rootLbas, lba < v.disk.size := fun lba hl =>
    dirLbas_readable hw (Or.inl ⟨rfl, rfl⟩) hl
  simp [Volume.findFreeDirEntry, hw.mounted, ← freeInSector_slots v _ hread]

theorem findFreeDirEntry_sub (hw : Working v) {t : List ℕ} (hd : 2 ≤ d)
    (ht : FatChain v d (d::t)) :
    v.findFreeDirEntry d =
      match (slotsOf (chainLbas v.bpb (d::t))).findSome? (freeAt v) with
      | some p => some (some p, v)
      | none => some (v.extendDir ((d::t).getLast (by simp))) := by
  have hL : DirLbas v d (chainLbas v.bpb (d::t)) := Or.inr ⟨hd, t, ht, rfl⟩
  have hread : ∀ lba ∈ chainLbas v.bpb (d::t), lba < v.disk.size := fun lba hl =>
    dirLbas_readable hw hL hl
  have hlen := fatChain_length ht
  have hwalk := walk_linked inChain
    (fun c => (v.bpb.clusterLbas c).findSome? v.freeInSector)
    (inRange_inChain v.bpb) isLast_inChain ht chainFuel (by unfold chainFuel; omega) d
  rw [← findSome?_flatMap] at hwalk
  rw [Volume.findFreeDirEntry, if_neg (by simp [hw.mounted]), if_neg (by omega),
    Nat.mod_eq_of_lt (dirLbas_lt hL), hwalk, ← freeInSector_slots v _ hread, chainLbas]
  cases ((d::t).flatMap v.bpb.clusterLbas).findSome? v.freeInSector with
  | some p => rfl
  | none => simp [List.getLastD_eq_getLast?, List.getLast?_eq_getLast_of_ne_nil]

/-- An entry that a lookup compares with the requested name. -/
structure Shown (e : DirEntry) : Prop where
  used : ¬ e.isEnd
  kept : ¬ e.isDeleted
  shown : e.attributes &&& attrHiddenMask = 0

theorem probeAt_found {name : List UInt8} {p q : Slot} (h : probeAt v name p = some (some q)) :
    q = p ∧ Shown (v.entryAt p) ∧ entryName (v.entryAt p) = name.map upper := by
  unfold probeAt Volume.probeEntry at h
  split_ifs at h with h1 h2 h3 h4
  · simp at h
  · exact ⟨by simpa using h.symm, ⟨h1, h2, not_not.mp h3⟩, (matchFilename_iff _ _).mp h4⟩

theorem probeAt_stop {name : List UInt8} {p : Slot} (h : probeAt v name p = some none) :
    (v.entryAt p).isEnd := by
  unfold probeAt Volume.probeEntry at h
  split_ifs at h with h1 h2 h3 h4
  · exact h1
  · simp at h

theorem probeAt_skip {name : List UInt8} {p : Slot} (h : probeAt v name p = none) :
    ¬ (v.entryAt p).isEnd ∧
      (Shown (v.entryAt p) → entryName (v.entryAt p) ≠ name.map upper) := by
  unfold probeAt Volume.probeEntry at h
  split_ifs at h with h1 h2 h3 h4
  · exact ⟨h1, fun hs => absurd h2 hs.kept⟩
  · exact ⟨h1, fun hs => absurd hs.shown h3⟩
  · exact ⟨h1, fun _ hn => h4 ((matchFilename_iff _ _).mpr hn)⟩

theorem freeAt_some {p q : Slot} (h : freeAt v p = some q) :
    q = p ∧ ((v.entryAt p).isEnd ∨ (v.entryAt p).isDeleted) := by
  unfold freeAt Volume.freeEntry at h
  split_ifs at h with h1
  exact ⟨by simpa using h.symm, h1⟩

theorem freeAt_none {p : Slot} (h : freeAt v p = none) :
    ¬ (v.entryAt p).isEnd ∧ ¬ (v.entryAt p).isDeleted := by
  unfold freeAt Volume.freeEntry at h
  split_ifs at h with h1
  exact not_or.mp h1

/-- A lookup that succeeds returns a slot of the directory with that name. -/
theorem findDirEntry_found (hw : Working v) (hL : DirLbas v d L) {name : List UInt8} {p : Slot}
    (h : v.findDirEntry d name = some (some p)) :
    p ∈ slotsOf L ∧ Shown (v.entryAt p) ∧ entryName (v.entryAt p) = name.map upper := by
  rw [findDirEntry_slots hw hL] at h
  cases hf : (slotsOf L).findSome? (probeAt v name) with
  | none => simp [hf] at h
  | some r =>
    have hr : r = some p := by simpa [hf] using h
    obtain ⟨l₁, a, l₂, hl, ha, -⟩ := List.findSome?_eq_some_iff.mp (hr ▸ hf)
    obtain ⟨rfl, hs, hn⟩ := probeAt_found ha
    exact ⟨by simp [hl], hs, hn⟩

/-- A lookup that fails in a terminated directory proves the name absent. -/
theorem findDirEntry_absent (hw : Working v) (hL : DirLbas v d L) (he : Ended v L)
    {name : List UInt8} (h : v.findDirEntry d name = some none) :
    ∀ p ∈ slotsOf L, Shown (v.entryAt p) → entryName (v.entryAt p) ≠ name.map upper := by
  rw [findDirEntry_slots hw hL] at h
  intro p hp hs
  cases hf : (slotsOf L).findSome? (probeAt v name) with
  | none => exact (probeAt_skip (List.findSome?_eq_none_iff.mp hf p hp)).2 hs
  | some r =>
    have hr : r = none := by simpa [hf] using h
    obtain ⟨l₁, a, l₂, hl, ha, hskip⟩ := List.findSome?_eq_some_iff.mp (hr ▸ hf)
    have hend := probeAt_stop ha
    rw [hl] at hp
    rw [Ended, hl, List.pairwise_append, List.pairwise_cons] at he
    rcases List.mem_append.mp hp with hp | hp
    · exact (probeAt_skip (hskip p hp)).2 hs
    · rcases List.mem_cons.mp hp with rfl | hp
      · exact absurd hend hs.used
      · exact absurd (he.2.1.1 p hp hend) hs.used

theorem findDirEntry_returns (hw : Working v) (hL : DirLbas v d L) (name : List UInt8) :
    ∃ r, v.findDirEntry d name = some r := ⟨_, findDirEntry_slots hw hL name⟩

/-- For a valid name, what a lookup compares is a visible entry. -/
theorem shown_visible {e : DirEntry} {name : List UInt8} (hn : ValidName name)
    (hs : Shown e) (he : entryName e = name.map upper) : Visible e := by
  refine ⟨hs.used, hs.kept, hs.shown, fun hdot => ?_⟩
  obtain ⟨base, ext, rfl, h1, -, -, hb, -, -⟩ := hn.parts
  cases base with
  | nil => simp at h1
  | cons c base =>
    have hc := (upper_valid c (hb c (by simp))).2.2.1
    have hu : upper dot = dot := by decide
    rcases hdot with hd | hd <;> rw [entryName, hd] at he <;> simp [hu] at he
    · exact hc he.1.symm
    · exact hc he.1.symm

theorem visible_shown {e : DirEntry} (h : Visible e) : Shown e := ⟨h.used, h.kept, h.shown⟩

end Search

end Vlsmc.Fat16Directory
