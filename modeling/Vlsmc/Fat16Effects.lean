import Vlsmc.RootedTree
import Vlsmc.Fat16Store

/-!
# What deleting and adding entries spares

The directories of a sound volume form a tree. Deleting an entry spares every
entry that is not below it; adding an entry in a free slot spares everything.
-/

set_option autoImplicit false

namespace Vlsmc.Fat16Effects
open Vlsmc.Fat16Layout Vlsmc.Fat16Names Vlsmc.Fat16Volume Vlsmc.Fat16Geometry
open Vlsmc.Fat16Chains Vlsmc.Fat16Directory Vlsmc.Fat16Soundness Vlsmc.Fat16Updates
open Vlsmc.Fat16Growth Vlsmc.RootedTree
open Relation

/-- Directory `d` is `c` or lies below it. -/
def Below (v : Volume) (c d : ℕ) : Prop := ReflTransGen (Child v) c d

/-- The directory `d` does not lie below the entry that goes away. -/
def Clear (v : Volume) (gone : Option Slot) (d : ℕ) : Prop :=
  ∀ p ∈ gone, (v.entryAt p).isDirectory → 2 ≤ (v.entryAt p).cluster →
    ¬ Below v (v.entryAt p).cluster d

/-- Directories that are not below the lost entry stay reachable, with all
their other entries. -/
def Spares (v w : Volume) (gone : Option Slot) : Prop :=
  ∀ d, Reachable v d → Clear v gone d → Reachable w d ∧
    ∀ p, VisibleAt v d p → p ∉ gone → VisibleAt w d p ∧ Kept v w p

/-- What can still be reached was there before, and not below the lost entry. -/
def Cuts (v w : Volume) (gone : Option Slot) : Prop :=
  ∀ d, Reachable w d → Reachable v d ∧ Clear v gone d

theorem clear_none (v : Volume) (d : ℕ) : Clear v none d := by simp [Clear]

theorem cuts_trans {u v w : Volume} {gone : Option Slot} (h : Cuts u v gone)
    (h' : Cuts v w none) : Cuts u w gone := fun d hd => h d (h' d hd).1

theorem grows_cuts {v w : Volume} (h : Grows v w) : Cuts v w none := fun d hd =>
  ⟨(h.reach d).mp hd, clear_none v d⟩

theorem spares_trans {u v w : Volume} {gone : Option Slot} (hb : v.bpb = u.bpb)
    (h : Spares u v gone) (h' : Spares v w none) : Spares u w gone := by
  intro d hd hc
  obtain ⟨hd1, hk1⟩ := h d hd hc
  obtain ⟨hd2, hk2⟩ := h' d hd1 (clear_none v d)
  refine ⟨hd2, fun p hp hg => ?_⟩
  obtain ⟨hp1, hkp1⟩ := hk1 p hp hg
  obtain ⟨hp2, hkp2⟩ := hk2 p hp1 (by simp)
  exact ⟨hp2, kept_trans hb hkp1 hkp2⟩

theorem grows_spares {v w : Volume} (h : Grows v w) : Spares v w none := fun d hd _ =>
  ⟨(h.reach d).mpr hd, fun p hp _ => ⟨(h.visible d p hd).mpr hp, h.kept d p hd hp⟩⟩

section Tree

variable {v : Volume} (hs : Sound v)
include hs

/-- Entries with the same cluster are the same entry. -/
theorem cluster_unique {d d' : ℕ} {p p' : Slot} (hd : Reachable v d) (hp : VisibleAt v d p)
    (hd' : Reachable v d') (hp' : VisibleAt v d' p') (h2 : 2 ≤ (v.entryAt p).cluster)
    (he : (v.entryAt p).cluster = (v.entryAt p').cluster) : p = p' := by
  by_contra hne
  obtain ⟨t, ht⟩ := hs.chains d p hd hp h2
  have ht' : FatChain v (v.entryAt p').cluster ((v.entryAt p').cluster::t) := he ▸ ht
  exact hs.disjoint d p d' p' _ _ hd hp hd' hp' hne ht ht' List.mem_cons_self
    (he ▸ List.mem_cons_self)

theorem directories_rooted : Rooted (Child v) 0 where
  top := by
    rintro a ⟨p, -, -, h2, -⟩
    omega
  parent := by
    rintro a b x ha hb ⟨p, hp, -, h2, hc⟩ ⟨q, hq, -, -, hc'⟩
    obtain rfl := cluster_unique hs ha hp hb hq (by omega) (hc.trans hc'.symm)
    exact inDir_unique hs ha hb hp.1 hq.1

/-- A directory never lies below one of its own entries. -/
theorem own_clear {d : ℕ} {p : Slot} (hd : Reachable v d) (hp : VisibleAt v d p) :
    Clear v (some p) d := by
  rintro q ⟨rfl⟩ hdir h2 hbelow
  exact rooted_acyclic (directories_rooted hs) hd
    (TransGen.head' ⟨p, hp, hdir, h2, rfl⟩ hbelow)

omit hs in
/-- A sector of a directory is no sector of a chain that its own chain does not meet. -/
theorem dir_sector_apart {d c : ℕ} {q : Slot} {l : List ℕ} (hq : InDir v d q)
    (hl : FatChain v c l) (hapart : 2 ≤ d → ∀ t, FatChain v d t → ∀ y ∈ t, y ∉ l) :
    q.1 ∉ chainLbas v.bpb l := by
  intro hm
  obtain ⟨x, hx, hxl⟩ := List.mem_flatMap.mp hm
  have hxr := fatChain_range hl x hx
  obtain ⟨L, hL, hqL⟩ := hq
  have hql := (mem_slotsOf.mp hqL).1
  rcases hL with ⟨rfl, rfl⟩ | ⟨h2, t, ht, rfl⟩
  · exact root_not_cluster v.bpb hxr.1 hxr.2 hxl hql
  · obtain ⟨y, hy, hyl⟩ := List.mem_flatMap.mp hql
    have hyr := fatChain_range ht y hy
    have hxy : x ≠ y := fun h => hapart h2 _ ht y hy (h ▸ hx)
    exact clusterLbas_disjoint v.bpb hxr.1 hxr.2 hyr.1 hyr.2 hxy hxl hyl

/-- A sector of a directory is no sector of a file. -/
theorem dir_sector_file {d d' : ℕ} {p q : Slot} {l : List ℕ} (hd : Reachable v d)
    (hq : InDir v d q) (hd' : Reachable v d') (hp : VisibleAt v d' p)
    (hfile : ¬ (v.entryAt p).isDirectory) (hl : FatChain v (v.entryAt p).cluster l) :
    q.1 ∉ chainLbas v.bpb l := by
  refine dir_sector_apart hq hl fun h2 t ht y hy hyl => ?_
  obtain ⟨d1, p1, hd1, hp1, hdir, -, rfl⟩ := reachable_owner hd (by omega)
  have hpp : p ≠ p1 := fun h => hfile (h ▸ hdir)
  exact hs.disjoint d' p d1 p1 l _ hd' hp hd1 hp1 hpp hl ht hyl hy

omit hs in
theorem dir_sector_loose {d c : ℕ} {q : Slot} {l : List ℕ} (hd : Reachable v d)
    (hq : InDir v d q) (hl : Loose v c l) : q.1 ∉ chainLbas v.bpb l :=
  dir_sector_apart hq hl.1 fun h2 _ ht y hy hyl => hl.2 y hyl (dir_owned hd h2 ht y hy)

end Tree

section Drop

variable {v w : Volume} {d0 : ℕ} {p0 : Slot} {l : List ℕ} (hs : Sound v) (hw : Working v)
  (hd0 : Reachable v d0) (hp0 : VisibleAt v d0 p0)
  (hl : 2 ≤ (v.entryAt p0).cluster → FatChain v (v.entryAt p0).cluster l)
  (hl0 : (v.entryAt p0).cluster < 2 → l = [])
  (hb : w.bpb = v.bpb) (hfat : ∀ x, w.fat x = if x ∈ l then 0 else v.fat x)
  (hd : w.disk = (v.updateEntry p0 DirEntry.markDeleted).disk)
include hs hw hd0 hp0 hl hl0 hb hfat hd

/-- Deleting an entry and freeing its chain. -/
theorem drop_spec : Sound w ∧ Spares v w (some p0) ∧ Cuts v w (some p0) ∧
    ∀ d p, Reachable w d → (VisibleAt w d p ↔ VisibleAt v d p ∧ p ≠ p0) := by
  have hread := inDir_readable hw hp0.1
  obtain ⟨hsu, hru, hvu, hnu⟩ := sound_delete (w := v.updateEntry p0 DirEntry.markDeleted)
    hs rfl (fun _ => rfl) hd0 hp0 (updateEntry_entryAt v p0 _ hread)
  have ht : SameTree (v.updateEntry p0 DirEntry.markDeleted) w := by
    refine ⟨hb, fun c hc => ?_, fun c _ lba _ => by rw [hd], fun lba _ => by rw [hd]⟩
    rw [hfat, updateEntry_fat]
    refine if_neg fun hcl => ?_
    by_cases h2 : 2 ≤ (v.entryAt p0).cluster
    · exact hnu l (hl h2) c hcl hc
    · simp [hl0 (by omega)] at hcl
  have hreach : ∀ d, Reachable w d → Reachable v d := fun d h =>
    hru d ((sameTree_reachable hsu ht d).mp h)
  have hvis : ∀ d p, Reachable w d → (VisibleAt w d p ↔ VisibleAt v d p ∧ p ≠ p0) := fun d p h =>
    (sameTree_visible hsu ht ((sameTree_reachable hsu ht d).mp h)).trans (hvu d p)
  have hentry : ∀ p, p ≠ p0 → w.entryAt p = v.entryAt p := by
    intro p hp
    have : w.entryAt p = (v.updateEntry p0 DirEntry.markDeleted).entryAt p := by
      rw [Volume.entryAt, hd, Volume.entryAt]
    rw [this, updateEntry_entryAt v p0 _ hread, setAt_ne _ _ hp]
  have hkept : ∀ d p, Reachable v d → VisibleAt v d p → p ≠ p0 → Kept v w p := by
    intro d p hdr hp hne
    refine ⟨hentry p hne, fun hfile m hm => ⟨fatChain_congr hb hm fun x hx => ?_, fun lba hlba => ?_⟩⟩
    · rw [hfat]
      refine if_neg fun hxl => ?_
      by_cases h2 : 2 ≤ (v.entryAt p0).cluster
      · exact hs.disjoint d p d0 p0 m l hdr hp hd0 hp0 hne hm (hl h2) hx hxl
      · simp [hl0 (by omega)] at hxl
    · rw [hd]
      refine updateEntry_other v p0 _ lba fun h => ?_
      exact dir_sector_file hs hd0 hp0.1 hdr hp hfile hm (h ▸ hlba)
  have hcuts : Cuts v w (some p0) := by
    refine fun d hdw => ⟨hreach d hdw, ?_⟩
    rintro q ⟨rfl⟩ hdir h2
    have hchild : Child v d0 (v.entryAt p0).cluster := ⟨p0, hp0, hdir, h2, rfl⟩
    refine (reached_outside (directories_rooted hs) (hd0.tail hchild) (by omega) hdw ?_).2
    rintro a b ha hav - ⟨p, hp, hpdir, hp2, hpc⟩
    obtain ⟨hpv, hne⟩ := (hvis a p ha).mp hp
    rw [hentry p hne] at hpdir hpc
    refine ⟨⟨p, hpv, hpdir, hp2, hpc⟩, fun hb => hne ?_⟩
    exact cluster_unique hs hav hpv hd0 hp0 (by omega) (hpc.trans hb)
  refine ⟨sound_frame hsu ht, fun d hdr hc => ?_, hcuts, hvis⟩
  have hstep : ∀ a, Reachable w a → Reachable v a → ∀ b, Child v a b →
      b ≠ (v.entryAt p0).cluster ∨ ¬ (v.entryAt p0).isDirectory ∨ (v.entryAt p0).cluster < 2 →
      Child w a b := by
    rintro a ha hav b ⟨p, hp, hdir, h2, hcl⟩ hb'
    have hne : p ≠ p0 := by
      rintro rfl
      rcases hb' with h | h | h
      · exact h hcl.symm
      · exact h hdir
      · omega
    refine ⟨p, (hvis a p ha).mpr ⟨hp, hne⟩, ?_⟩
    rw [hentry p hne]
    exact ⟨hdir, h2, hcl⟩
  have hdw : Reachable w d := by
    by_cases hdir : (v.entryAt p0).isDirectory ∧ 2 ≤ (v.entryAt p0).cluster
    · exact reach_avoiding hdr (hc p0 rfl hdir.1 hdir.2) fun a b ha _ haw hab hbc =>
        hstep a haw ha b hab (Or.inl hbc)
    · -- a file has nothing below it
      induction hdr with
      | refl => exact ReflTransGen.refl
      | @tail a b ha hab ih =>
        have hclear : Clear v (some p0) a := by
          rintro q ⟨rfl⟩ h1 h2
          exact absurd ⟨h1, h2⟩ hdir
        refine (ih hclear).tail (hstep a (ih hclear) ha b hab (Or.inr ?_))
        rcases not_and_or.mp hdir with h | h
        · exact Or.inl h
        · exact Or.inr (by omega)
  refine ⟨hdw, fun p hp hg => ?_⟩
  have hne : p ≠ p0 := fun h => hg (by simp [h])
  exact ⟨(hvis d p hdw).mpr ⟨hp, hne⟩, hkept d p hdr hp hne⟩

end Drop

section Insert

variable {v w : Volume} {d : ℕ} {q : Slot} {e : DirEntry} (hs : Sound v)
  (hq : FreeSlot v d q) (hev : Visible e)
  (hname : ∀ p, VisibleAt v d p → entryName (v.entryAt p) ≠ entryName e)
  (hb : w.bpb = v.bpb) (hfat : ∀ x, w.fat x = v.fat x)
  (hother : ∀ lba, lba ≠ q.1 → w.disk.data lba = v.disk.data lba)
  (hentry : ∀ p, w.entryAt p = setAt v.entryAt q e p)
  (hnew : 2 ≤ e.cluster → ∃ t, Loose v e.cluster (e.cluster::t))
  (hempty : e.isDirectory → 2 ≤ e.cluster → (∀ r, ¬ VisibleAt w e.cluster r) ∧
    ∀ L, DirLbas v e.cluster L → Ended w L)
include hs hq hev hname hb hfat hother hentry hnew hempty

/-- Adding an entry whose clusters belong to nobody. -/
theorem insert_spec : Sound w ∧ Spares v w none ∧
    VisibleAt w d q ∧ w.entryAt q = e ∧ (¬ e.isDirectory → Cuts v w none) := by
  obtain ⟨hsw, hvis, hreach⟩ := sound_insert hs hb hfat hq hev hname hentry
    (fun h2 => by
      obtain ⟨t, ht⟩ := hnew h2
      exact ⟨t, ht.1, ht.2⟩) hempty
  have hqv := freeSlot_not_visible hq
  have hsame : ∀ p, p ≠ q → w.entryAt p = v.entryAt p := fun p hp => by
    rw [hentry, setAt_ne _ _ hp]
  have hkeep : ∀ a p, VisibleAt v a p → VisibleAt w a p ∧ p ≠ q := by
    intro a p hp
    have hne : p ≠ q := fun h => hqv (h ▸ hp.2)
    exact ⟨(hvis a p).mpr (by simpa [hne] using hp), hne⟩
  refine ⟨hsw, fun a ha _ => ⟨?_, fun p hp _ => ?_⟩, ?_, by rw [hentry, setAt_same],
    fun hfile a ha => ⟨(hreach a ha).resolve_right fun h => hfile h.1, clear_none v a⟩⟩
  · induction ha with
    | refl => exact ReflTransGen.refl
    | tail _ hab ih =>
      obtain ⟨p, hp, hr⟩ := hab
      obtain ⟨hp', hne⟩ := hkeep _ p hp
      exact (ih (clear_none _ _)).tail ⟨p, hp', by rwa [hsame p hne]⟩
  · obtain ⟨hp', hne⟩ := hkeep a p hp
    refine ⟨hp', hsame p hne, fun hfile l hl => ⟨(rewrite_chain hb hfat).mpr hl, fun lba hlba => ?_⟩⟩
    refine hother lba fun h => ?_
    exact dir_sector_file hs hq.reachable (freeSlot_inDir hq) ha hp hfile hl (h ▸ hlba)
  · exact (hvis d q).mpr (by simpa using freeSlot_inDir hq)

end Insert

end Vlsmc.Fat16Effects
