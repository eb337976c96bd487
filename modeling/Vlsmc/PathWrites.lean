import Vlsmc.CreatingOpens
import Vlsmc.PathOperations

/-!
# What writing a file leaves alone

`vfs_write_file` replaces whatever the name is found at: its clusters are freed and its slot is
marked, then the entry of the new file goes to the first free slot. A name that is not found is
created first, as an empty file, and then replaced. In both cases the rest keeps its place exactly
when the replaced entry was removable and the new one hides no other.
-/

set_option autoImplicit false

namespace Vlsmc.PathWrites
open Vlsmc.Fat16Layout Vlsmc.Fat16Names Vlsmc.Fat16Volume Vlsmc.Fat16Files
open Vlsmc.Fat16Geometry Vlsmc.Fat16Chains Vlsmc.Fat16Directory Vlsmc.Fat16Soundness
open Vlsmc.Fat16Updates Vlsmc.Fat16Growth Vlsmc.Fat16Store Vlsmc.Fat16Effects
open Vlsmc.Fat16Operations Vlsmc.Fat16RoundTrip Vlsmc.Vfs Vlsmc.StorableNames
open Vlsmc.PathLookups Vlsmc.DirectoryEdits Vlsmc.PathOperations Vlsmc.CreatedEntries
open Relation

section Cleared

/-- The volume without the entry that is replaced. -/
structure Cleared (v w : Volume) (d : ℕ) (found : Option Slot) : Prop where
  working : Working w
  sound : Sound w
  bpb : w.bpb = v.bpb
  spares : Spares v w (found.bind (lost v))
  reach : ∀ a, Reachable w a → Reachable v a
  visible : ∀ a x, Reachable w a → (VisibleAt w a x ↔ VisibleAt v a x ∧ x ∉ found)
  dropped : ∀ x ∈ found, (w.entryAt x).isDeleted
  entry : ∀ x, x ∉ found → w.entryAt x = v.entryAt x
  lbas : ∀ L, DirLbas v d L → DirLbas w d L

variable {v w : Volume} {dir : ℕ} {name : Name} {p : Slot} {found : Option Slot}
  (hw : Working v) (hs : Sound v) (hd : Reachable v dir)
include hw hs

theorem cleared_none (dir : ℕ) : Cleared v v dir none where
  working := hw
  sound := hs
  bpb := rfl
  spares := grows_spares (grows_refl hs)
  reach := fun _ h => h
  visible := fun _ _ _ => by simp
  dropped := by simp
  entry := fun _ _ => rfl
  lbas := fun _ h => h

include hd

theorem cleared_drops (hf : Finds v dir name p) (h : Drops v w p) (hfree : FreesOwn v p) :
    Cleared v w dir (some p) := by
  obtain ⟨hin, hsh, -⟩ := finds_inDir hw hs hd hf
  obtain ⟨hsw, hsp, hreach, hvis⟩ := drops_spec hw hs hd hin hsh h hfree
  refine ⟨drops_working hw h, hsw, h.bpb, hsp, hreach, fun a x ha => ?_, ?_, fun x hx => ?_,
    fun L hL => drops_dirLbas hs hd hin hsh h hfree hL⟩
  · rw [hvis a x ha]
    exact and_congr_right fun _ => not_congr (by simp [eq_comm])
  · rintro x ⟨rfl⟩
    rw [drops_entry hw hin h, setAt_same]
    exact markDeleted_deleted _
  · have hxp : x ≠ p := fun he => hx (by simp [he])
    rw [drops_entry hw hin h, setAt_ne _ _ hxp]

omit hw hs hd in
theorem lost_visible (hin : ∀ p ∈ found, InDir v dir p ∧ Shown (v.entryAt p)) :
    ∀ r ∈ found.bind (lost v), r ∈ found ∧ ¬ isDot (v.entryAt r) ∧ VisibleAt v dir r := by
  intro r hr
  obtain ⟨p, hp, hr⟩ := Option.bind_eq_some_iff.mp hr
  obtain ⟨hpin, hsh⟩ := hin p hp
  unfold lost at hr
  split_ifs at hr with hdot
  obtain rfl := Option.some.inj hr
  exact ⟨hp, hdot, hpin, hsh.used, hsh.kept, hsh.shown, hdot⟩

omit hw in
theorem cleared_reachable (hin : ∀ p ∈ found, InDir v dir p ∧ Shown (v.entryAt p))
    (h : Cleared v w dir found) : Reachable w dir := by
  refine (h.spares dir hd fun r hr => ?_).1
  exact own_clear hs hd (lost_visible hin r hr).2.2 r rfl

omit hw in
/-- The free slots that come before an entry: those of before, and that of the replaced entry. -/
theorem cleared_behind (h : Cleared v w dir found) {x : Slot} : BehindFree w dir x ↔
    ∃ y, Precedes v dir y x ∧ ((v.entryAt y).isDeleted ∨ y ∈ found) := by
  obtain ⟨L, hL⟩ := reachable_lbas hs hd
  have hprec : ∀ y, Precedes w dir y x ↔ Precedes v dir y x := by
    intro y
    constructor
    · rintro ⟨M, hM, hy⟩
      obtain rfl := dirLbas_unique hM (h.lbas L hL)
      exact ⟨M, hL, hy⟩
    · rintro ⟨M, hM, hy⟩
      exact ⟨M, h.lbas M hM, hy⟩
  refine exists_congr fun y => ?_
  rw [hprec]
  refine and_congr_right fun _ => ?_
  by_cases hy : y ∈ found
  · exact iff_of_true (h.dropped y hy) (Or.inr hy)
  · rw [h.entry y hy]
    exact ⟨Or.inl, fun hor => hor.resolve_right hy⟩

end Cleared

section Settled

/-- The volume in which the slot for the new entry is looked for: more clusters may be taken, and
slots may have been written that no lookup stops at. -/
structure Settled (v b : Volume) (d : ℕ) : Prop where
  grows : Grows v b
  behind : ∀ x, VisibleAt v d x → (BehindFree b d x ↔ BehindFree v d x)

/-- The entries of the directory that can be found were in it before the free slot was looked
for. -/
def Back (b u : Volume) (d : ℕ) : Prop :=
  ∀ y, InDir u d y → ¬ (u.entryAt y).isEnd → InDir b d y ∧ u.entryAt y = b.entryAt y

variable {v b u w : Volume} {d : ℕ} {q : Slot} {e : DirEntry}

theorem settled_trans (hd : Reachable v d) (h : Settled v b d) (h' : Settled b u d) :
    Settled v u d :=
  ⟨grows_trans h.grows h'.grows, fun x hx =>
    (h'.behind x ((h.grows.visible d x hd).mpr hx)).trans (h.behind x hx)⟩

theorem settled_same (hs : Sound v) (hd : Reachable v d) (ht : SameTree v b) (hg : Grows v b) :
    Settled v b d := by
  refine ⟨hg, fun x _ => exists_congr fun y => ?_⟩
  constructor
  · rintro ⟨⟨L, hL, hy⟩, hdel⟩
    have hL' := (sameTree_dirLbas hs ht hd).mp hL
    refine ⟨⟨L, hL', hy⟩, ?_⟩
    rwa [← sameTree_entry ht hd ⟨L, hL', hy.subset (by simp)⟩]
  · rintro ⟨⟨L, hL, hy⟩, hdel⟩
    refine ⟨⟨L, (sameTree_dirLbas hs ht hd).mpr hL, hy⟩, ?_⟩
    rwa [sameTree_entry ht hd ⟨L, hL, hy.subset (by simp)⟩]

/-- The slots of a new cluster are end slots. -/
theorem back_of_free {L : List ℕ} (hw : Working b) (hL : DirLbas b d L)
    (h : b.findFreeDirEntry d = some (some q, u)) : Back b u d := by
  rcases findFree_cases hw hL h with ⟨rfl, -⟩ | ⟨t, c, rfl, h2, ht, -, -, hx⟩
  · exact fun y hy _ => ⟨hy, rfl⟩
  · rintro y ⟨M, hM, hy⟩ hend
    have hM' : DirLbas u d (chainLbas u.bpb (d::(t++[c]))) :=
      Or.inr ⟨h2, t++[c], extended_chain ht hx, rfl⟩
    have hslots : slotsOf (chainLbas u.bpb (d::t++[c])) =
        slotsOf (chainLbas b.bpb (d::t))++slotsOf (b.bpb.clusterLbas c) := by
      rw [hx.bpb, chainLbas_append, slotsOf_append]
      simp [chainLbas]
    rw [dirLbas_unique hM hM', ← List.cons_append, hslots] at hy
    rcases List.mem_append.mp hy with hy | hy
    · exact ⟨⟨_, hL, hy⟩, extend_entry hx.range hx.free hx.data hL hy⟩
    · exact absurd ((extended_slots hw hx).2 y hy) hend

/-- Writing an entry that is not visible to a free slot is no change of the tree. -/
theorem hidden_grows (hs : Sound u) (hq : FreeSlot u d q) (h : Rewrites u w none q e)
    (hend : ¬ e.isEnd) (hhid : ¬ Visible e) : Grows u w := by
  have hin := freeSlot_inDir hq
  have hent : ∀ a x, InDir u a x → w.entryAt x = setAt u.entryAt q e x := by
    intro a x hx
    rw [h.entry a x hx, setAt]
    simp
  have hvis : ∀ a x, VisibleAt w a x ↔ VisibleAt u a x := by
    intro a x
    unfold VisibleAt
    rw [rewrite_inDir h.bpb h.fat]
    refine and_congr_right fun hx => ?_
    rw [hent a x hx]
    by_cases hxq : x = q
    · rw [hxq, setAt_same]
      exact iff_of_false hhid (freeSlot_not_visible hq)
    · rw [setAt_ne _ _ hxq]
  have hsame : ∀ a x, VisibleAt u a x → w.entryAt x = u.entryAt x := by
    intro a x hx
    have hxq : x ≠ q := fun hh => freeSlot_not_visible hq (hh ▸ hx.2)
    rw [hent a x hx.1, setAt_ne _ _ hxq]
  obtain ⟨hsw, -⟩ := sound_rewrite h.bpb h.fat hs id (fun _ => False)
    (fun a x ha hx _ => by
      have hx' := (hvis a x).mp hx
      exact ⟨a, ha, hx', by rw [hsame a x hx']; rfl, by rw [hsame a x hx']; exact id⟩)
    (fun _ _ _ _ _ _ _ _ _ _ h => h) (fun _ _ h => h.elim) (fun _ h => h.elim)
    (fun _ h => h.elim)
    (fun a L ha hL => by
      refine ended_congr (E := setAt u.entryAt q e) ?_ fun x hx => hent a x ⟨L, hL, hx⟩
      by_cases hqL : q ∈ slotsOf L
      · obtain rfl := inDir_unique hs ha hq.reachable ⟨L, hL, hqL⟩ hin
        obtain ⟨M, l₁, l₂, hM, hl, hbefore⟩ := hq.first
        obtain rfl := dirLbas_unique hM hL
        exact ended_insert (hs.ended a M ha hL) hl (slotsOf_nodup (dirLbas_nodup hL)) hbefore e hend
      · exact ended_congr (hs.ended a L ha hL) fun x hx => setAt_ne _ _ fun hh => hqL (hh ▸ hx))
    (fun a x y ha hx hy hn => by
      have hx' := (hvis a x).mp hx
      have hy' := (hvis a y).mp hy
      rw [hsame a x hx', hsame a y hy'] at hn
      exact hs.names a x y ha hx' hy' hn)
  have hreach : ∀ a, Reachable w a ↔ Reachable u a := by
    refine reachable_congr fun a _ c => exists_congr fun x => ?_
    rw [hvis]
    refine and_congr_right fun hx => ?_
    rw [hsame a x hx]
  refine ⟨h.bpb, hsw, hreach, fun a x _ => hvis a x, fun a x ha hx =>
    rewrites_kept hq h hs ha hx (by simp) (by simp), fun c l hl => ⟨⟨(rewrite_chain h.bpb h.fat).mpr
    hl.1, ?_⟩, fun lba hlba => h.data lba ?_ ?_ (by simp)⟩⟩
  · rintro x hxl ⟨a, y, m, ha, hy, hm, hxm⟩
    have hy' := (hvis a y).mp hy
    rw [hsame a y hy', rewrite_chain h.bpb h.fat] at hm
    exact hl.2 x hxl ⟨a, y, m, (hreach a).mp ha, hy', hm, hxm⟩
  · obtain ⟨c, hc, hm⟩ := List.mem_flatMap.mp hlba
    have hr := fatChain_range hl.1 c hc
    exact fatRegion_not_cluster u.bpb hr.1 hr.2 hm
  · exact fun hh => dir_sector_loose hq.reachable hin hl (hh ▸ hlba)

/-- A new entry that is deleted again leaves a deleted slot where the first free one was. -/
theorem settled_deleted {w' : Volume} {e' : DirEntry} (h : Places b u w d none q e)
    (hback : Back b u d) (hr : Rewrites u w' none q e') (hend : ¬ e'.isEnd)
    (hdel : e'.isDeleted) : Settled b w' d := by
  have hd : Reachable b d := (h.grows.reach d).mp h.slot.reachable
  refine ⟨grows_trans h.grows (hidden_grows h.grows.sound h.slot hr hend fun hv => hv.kept hdel),
    fun x hx => ?_⟩
  obtain ⟨L, hL⟩ := reachable_lbas h.grows.sound h.slot.reachable
  have hbefore := places_before h hx hL
  constructor
  · rintro ⟨y, ⟨M, hM, hy⟩, hydel⟩
    obtain rfl := dirLbas_unique ((rewrite_dirLbas hr.bpb hr.fat).mp hM) hL
    have hyin : InDir u d y := ⟨M, hL, hy.subset (by simp)⟩
    by_cases hyq : y = q
    · rw [hyq] at hy
      exact hbefore.mp hy
    · have hyent : w'.entryAt y = u.entryAt y := by
        rw [hr.entry d y hyin, if_neg hyq, if_neg (by simp)]
      rw [hyent] at hydel
      have hyend : ¬ (u.entryAt y).isEnd := fun he => by
        rw [DirEntry.isDeleted, show (u.entryAt y).name 0 = 0x00 from he] at hydel
        exact absurd hydel (by decide)
      obtain ⟨hyb, hysame⟩ := hback y hyin hyend
      obtain ⟨N, hN, hyN⟩ := hyb
      rcases h.first N hN with ⟨rfl, -⟩ | ⟨-, hused⟩
      · exact ⟨y, ⟨M, hL, hy⟩, hydel⟩
      · exact absurd (hysame ▸ hydel) (hused y hyN).2
  · intro hb
    have hqx := hbefore.mpr hb
    refine ⟨q, ⟨L, (rewrite_dirLbas hr.bpb hr.fat).mpr hL, hqx⟩, ?_⟩
    rw [hr.entry d q (freeSlot_inDir h.slot), if_pos rfl]
    exact hdel

end Settled

section Stored

variable {v v1 v2 u w : Volume} {dir : ℕ} {name : Name} {q : Slot} {cs : List ℕ}
  {data : List UInt8}

/-- A new entry is found under the names that the short form has. -/
theorem fresh_found (h0 : 0 ∉ name) (first size : ℕ) (now : Stamp) (e : DirEntry) (n : Name) :
    Answers (freshEntry attrArchive name first size now e) n ↔
      ¬ (shortEntry name).isDeleted ∧ entryName (shortEntry name) = n.map upper := by
  have hmask : (freshEntry attrArchive name first size now e).attributes &&& attrHiddenMask = 0 :=
    (by decide : attrArchive &&& attrHiddenMask = 0)
  have hend : ¬ (freshEntry attrArchive name first size now e).isEnd := format83_not_end h0 e
  constructor
  · exact fun ha => ⟨ha.1.kept, ha.2⟩
  · exact fun ha => ⟨⟨hend, ha.1, hmask⟩, ha.2⟩

theorem fresh_file (name : Name) (first size : ℕ) (now : Stamp) (e : DirEntry) :
    ¬ (freshEntry attrArchive name first size now e).isDirectory :=
  (by decide : ¬ (attrArchive &&& attrDirectory ≠ 0))

theorem stored_same (hst : Stored v1 v2 data cs) : SameTree v1 v2.flushFat := by
  refine sameTree_of_free hst.bpb (fun x hx => hst.table x fun hm => hx (hst.free x hm))
    (fun x hx hne lba hl => ?_) fun lba hl => ?_
  · rw [flushFat_frame v2 lba (hst.bpb ▸ fatRegion_not_cluster v1.bpb hx.1 hx.2 hl)]
    exact hst.frame lba (stored_outside hst hx hne hl)
  · rw [flushFat_frame v2 lba (hst.bpb ▸ fatRegion_not_root v1.bpb hl)]
    exact hst.frame lba (stored_root hst hl)

/-- The data is stored, then the entry is written. -/
theorem stored_places (hw : Working v1) (hs : Sound v1) (hd : Reachable v1 dir) (h0 : 0 ∉ name)
    (hst : Stored v1 v2 data cs) (hfree : v2.flushFat.findFreeDirEntry dir = some (some q, u))
    (size : ℕ) (now : Stamp) :
    Settled v1 v2.flushFat dir ∧ Back v2.flushFat u dir ∧
      Places v2.flushFat u (u.updateEntry q (freshEntry attrArchive name (cs.headD 0) size now))
        dir none q (freshEntry attrArchive name (cs.headD 0) size now (u.entryAt q)) := by
  have hg2 := stored_grows hs hst
  have hw2 : Working v2 := working_congr hw hst.bpb hst.mounted hst.size
  have hg := grows_trans hg2 (grows_flush hg2.sound)
  have hwb : Working v2.flushFat := working_congr hw2 rfl rfl (flushFat_size v2)
  have hdb := (hg.reach dir).mpr hd
  have hflushed := flushFat_flushed v2 hw2
  obtain ⟨L, hL⟩ := reachable_lbas hg.sound hdb
  obtain ⟨r, u', hr, hwu, -, hgu, hslot⟩ := findFreeDirEntry_spec hwb hg.sound hflushed hdb
  obtain ⟨rfl, rfl⟩ := Prod.mk.inj (Option.some.inj (hfree.symm.trans hr))
  have hq := hslot q rfl
  have hread := inDir_readable hwu (freeSlot_inDir hq)
  refine ⟨settled_same hs hd (stored_same hst) hg, back_of_free hwb hL hfree, ?_⟩
  exact {
    workingB := hwb
    workingU := hwu
    workingW := working_congr hwu rfl rfl (updateEntry_size u q _)
    sound := hg.sound
    grows := hgu
    slot := hq
    first := fun M hM => findFreeDirEntry_first hwb hg.sound hflushed hdb hM hfree
    slots := fun a x ha hx => findFreeDirEntry_slots hwb hg.sound hflushed hdb hfree ha hx
    rewrites := {
      bpb := rfl
      fat := fun _ => rfl
      entry := fun a x _ => by
        rw [updateEntry_entryAt u q _ hread, setAt]
        simp
      data := fun lba _ hlba _ => updateEntry_other u q _ lba hlba }
    used := format83_not_end h0 (u.entryAt q)
    listed := by simp }

end Stored

/-- What `write_file_in_dir` may find under the name without harm to another entry. -/
def Replaceable (v : Volume) (dir : ℕ) (name : Name) (found : Option Slot) : Prop :=
  (∀ p ∈ found, Removable v p) ∧ ¬ Clashes v dir found found name

section Placed

variable {v v1 b u w : Volume} {dir : ℕ} {name : Name} {q : Slot} {e : DirEntry}
  {found : Option Slot} (hw : Working v) (hs : Sound v) (hd : Reachable v dir)
  (hfound : ∀ p ∈ found, Finds v dir name p) (hc : Cleared v v1 dir found)
  (hset : Settled v1 b dir) (hp : Places b u w dir none q e)
  (hans : ∀ n, Answers e n ↔
    ¬ (shortEntry name).isDeleted ∧ entryName (shortEntry name) = n.map upper)
include hw hs hd hfound hc hset

omit hw hs hd hfound in
/-- The entries that stay, in the volume where the new one is put. -/
theorem placed_visible {a : ℕ} {x : Slot} (ha : Reachable v1 a) :
    VisibleAt b a x ↔ VisibleAt v a x ∧ x ∉ found :=
  (hset.grows.visible a x ha).trans (hc.visible a x ha)

omit hw hs hd hfound in
theorem placed_entry {a : ℕ} {x : Slot} (ha : Reachable v1 a) (hx : VisibleAt b a x) :
    b.entryAt x = v.entryAt x := by
  have hx1 := (hset.grows.visible a x ha).mp hx
  rw [(hset.grows.kept a x ha hx1).entry, hc.entry x ((hc.visible a x ha).mp hx1).2]

theorem placed_dir : Reachable v1 dir ∧ Reachable b dir := by
  have h1 := cleared_reachable hs hd (fun p hpf => by
    obtain ⟨hin, hsh, -⟩ := finds_inDir hw hs hd (hfound p hpf)
    exact ⟨hin, hsh⟩) hc
  exact ⟨h1, (hset.grows.reach dir).mpr h1⟩

theorem placed_clashes : Clashes v dir found found name ↔ ¬ (shortEntry name).isDeleted ∧
    ∃ x, VisibleAt v dir x ∧ x ∉ found ∧
      entryName (v.entryAt x) = entryName (shortEntry name) ∧ BehindFree b dir x := by
  obtain ⟨hd1, -⟩ := placed_dir hw hs hd hfound hc hset
  refine and_congr_right fun _ => exists_congr fun x => ?_
  constructor
  · rintro ⟨y, hx, hxf, hn, hy⟩
    refine ⟨hx, hxf, hn, ?_⟩
    exact (hset.behind x ((hc.visible dir x hd1).mpr ⟨hx, hxf⟩)).mpr
      ((cleared_behind hs hd hc).mpr ⟨y, hy⟩)
  · rintro ⟨hx, hxf, hn, hb⟩
    have hb1 := (hset.behind x ((hc.visible dir x hd1).mpr ⟨hx, hxf⟩)).mp hb
    obtain ⟨y, hy⟩ := (cleared_behind hs hd hc).mp hb1
    exact ⟨y, hx, hxf, hn, hy⟩

include hp hans

/-- Nothing else is lost when nothing lies below the replaced entry and no other is hidden. -/
theorem placed_keeps (hrep : Replaceable v dir name found) :
    Confined v w found (freed v found) Eq := by
  rintro ns n x hns hn ⟨d, hdns, hx⟩ hxf ns' rfl
  have hin : ∀ p ∈ found, InDir v dir p ∧ Shown (v.entryAt p) := fun p hpf => by
    obtain ⟨hin, hsh, -⟩ := finds_inDir hw hs hd (hfound p hpf)
    exact ⟨hin, hsh⟩
  have hlost := lost_visible hin
  have hspb : Spares v b (found.bind (lost v)) :=
    spares_trans hc.bpb hc.spares (grows_spares hset.grows)
  have hgone : ∀ r ∈ found.bind (lost v), ∃ a, Reachable v a ∧ VisibleAt v a r := fun r hr =>
    ⟨dir, hd, (hlost r hr).2.2⟩
  have hpass := empty_not_passed hw hs hgone (fun r hr => by
    obtain ⟨hrf, hdot, -⟩ := hlost r hr
    exact (hrep.1 r hrf).2 hdot) hns hn hdns hx
  -- the new entry hides none of those that are found in its directory
  have hkeep : ∀ a m y, Reachable b a → NotDots m → y ∉ found.bind (lost v) → VisibleAt v a y →
      Finds b a m y → Finds w a m y ∧ w.entryAt y = b.entryAt y := by
    intro a m y ha hm _ hyv hf
    obtain ⟨hy, hyn⟩ := (finds_iff hp.workingB hp.sound ha hm).mp hf
    have ha1 := (hset.grows.reach a).mp ha
    refine ⟨places_keeps hp ha hm hf (by simp) fun hadir he hb => hrep.2 ?_,
      places_entry hp hy ha (by simp)⟩
    subst hadir
    obtain ⟨hdel, hname⟩ := (hans m).mp he
    rw [placed_entry hc hset ha1 hy] at hyn
    exact (placed_clashes hw hs hd hfound hc hset).mpr
      ⟨hdel, y, hyv, ((placed_visible hc hset ha1).mp hy).2, hyn.trans hname.symm, hb⟩
  have hxl : x ∉ found.bind (lost v) := fun hm => hxf (hlost x hm).1
  obtain ⟨hlead, hdr, hxv, hdb, hxb, hk⟩ := spared_path hw hs hp.workingB hp.sound hspb hgone hkeep
    hns hn hdns hx hxl hpass
  have hkw : Kept v w x :=
    kept_trans (hset.grows.bpb.trans hc.bpb) hk (places_kept hp hdb hxb (by simp))
  refine ⟨hlead, hkw.entry, fun hfile => ?_, fun l hl c hcl hm => ?_⟩
  · exact readEntry_kept ((hp.rewrites.bpb.trans hp.grows.bpb).trans
      (hset.grows.bpb.trans hc.bpb)) hw hp.workingW hs hdr hxv hkw hfile
  · cases found with
    | none => exact absurd hm (by simp [freed])
    | some p =>
      exact clusters_stay hw hs hd (hfound p rfl) (hrep.1 p rfl).1 hdr hxv
        (fun hh => hxf (by simp [hh])) l hl c hcl hm

omit hans in
/-- A lookup stops at the new entry or where it stopped before. -/
theorem placed_found {n : Name} {x : Slot} (hn : NotDots n) (hf : Finds w dir n x) :
    x = q ∨ Finds v dir n x ∧ x ∉ found := by
  obtain ⟨hd1, hdb⟩ := placed_dir hw hs hd hfound hc hset
  rcases places_back hp hdb hn hf with ⟨hxq, -⟩ | ⟨hfb, -⟩
  · exact Or.inl hxq
  · obtain ⟨hxb, hname⟩ := (finds_iff hp.workingB hp.sound hdb hn).mp hfb
    obtain ⟨hxv, hxf⟩ := (placed_visible hc hset hd1).mp hxb
    rw [placed_entry hc hset hd1 hxb] at hname
    exact Or.inr ⟨(finds_iff hw hs hd hn).mpr ⟨hxv, hname⟩, hxf⟩

omit hfound hc hset hp hans in
/-- No path leads through the replaced entry to its own directory. -/
theorem found_not_passed {p : Slot} (hin : InDir v dir p) {ns : List Name} (hns : Plain ns)
    (hdns : descend v 0 ns = some dir) : p ∉ steps v 0 ns := by
  intro hm
  obtain ⟨ms, o, rest, c, rfl, hms, ho, -⟩ := step_split hdns hm
  obtain ⟨hpm, hpo⟩ := plain_append.mp hns
  have hrc := descend_reachable hw hs hpm hms
  have hpv := ((finds_iff hw hs hrc (plain_cons.mp hpo).1).mp ho).1
  obtain rfl := inDir_unique hs hrc hd hpv.1 hin
  exact steps_own hw hs (plain_append.mpr ⟨hpm, hpo⟩) hdns hpv hm

omit hans in
/-- Nothing lay below the replaced entry when the rest is untouched: a file took its place. -/
theorem placed_empty (hfile : ¬ e.isDirectory) (hconf : Confined v w found (freed v found) Eq) :
    ∀ p ∈ found, ¬ isDot (v.entryAt p) → EmptyDir v p := by
  intro p hpf hdot hdir h2 x hx
  obtain ⟨hin, hsh, -⟩ := finds_inDir hw hs hd (hfound p hpf)
  have hpv : VisibleAt v dir p := ⟨hin, hsh.used, hsh.kept, hsh.shown, hdot⟩
  have hcl : Reachable v (v.entryAt p).cluster := hd.tail ⟨p, hpv, hdir, h2, rfl⟩
  obtain ⟨ns, o, hns, ho, hdns, hfo⟩ := visible_path hw hs hd hpv
  obtain ⟨hm, hfm⟩ := visible_found hw hs hcl hx
  have hxp : x ∉ found := fun hxf =>
    below_other hs hd hpv hdir h2 hx (Option.some.inj (hxf.symm.trans hpf))
  obtain ⟨⟨c, hcw, -⟩, -⟩ := hconf (ns++[o]) _ x (plain_append.mpr ⟨hns, by simpa [Plain] using ho⟩)
    hm (leads_snoc ⟨dir, hdns, hfo⟩ hdir h2 hfm) hxp _ rfl
  obtain ⟨c', z, hcw', hz, hzdir, -⟩ := descend_snoc.mp hcw
  have hdw := confined_descend hconf (fun _ _ => rfl) hns hdns fun r hr =>
    found_not_passed hw hs hd (finds_inDir hw hs hd (hfound r hr)).1 hns hdns
  obtain rfl := Option.some.inj (hcw'.symm.trans hdw)
  rcases placed_found hw hs hd hfound hc hset hp ho hz with rfl | ⟨hzf, hzn⟩
  · rw [rewrites_new hp.rewrites (freeSlot_inDir hp.slot)] at hzdir
    exact hfile hzdir
  · exact hzn (finds_unique hfo hzf ▸ hpf)

/-- An entry that the new one hides is not found any more. -/
theorem placed_hides (hconf : Confined v w found (freed v found) Eq) :
    ¬ Clashes v dir found found name := by
  intro hclash
  obtain ⟨hd1, hdb⟩ := placed_dir hw hs hd hfound hc hset
  obtain ⟨hdel, x, hx, hxf, hn, hb⟩ := (placed_clashes hw hs hd hfound hc hset).mp hclash
  obtain ⟨hm, hfm⟩ := visible_found hw hs hd hx
  obtain ⟨ns, hns, hdns⟩ := below_path hw hs .refl hd
  obtain ⟨⟨c, hcw, hfx⟩, -⟩ := hconf ns _ x hns hm ⟨dir, hdns, hfm⟩ hxf ns rfl
  have hdw := confined_descend hconf (fun _ _ => rfl) hns hdns fun r hr =>
    found_not_passed hw hs hd (finds_inDir hw hs hd (hfound r hr)).1 hns hdns
  obtain rfl := Option.some.inj (hcw.symm.trans hdw)
  have hxb := (placed_visible hc hset hd1).mpr ⟨hx, hxf⟩
  have hfb : Finds b c (decodedName (v.entryAt x)) x :=
    (finds_iff hp.workingB hp.sound hdb hm).mpr ⟨hxb, by
      rw [placed_entry hc hset hd1 hxb]
      rfl⟩
  have hq := places_hides hp hdb hm hfb ((hans _).mpr ⟨hdel, hn.symm⟩) hb
  obtain rfl := finds_unique hfx hq
  exact freeSlot_not_visible hp.slot ((hp.grows.visible c x hdb).mpr hxb).2

/-- What replacing an entry does to the others. -/
theorem placed_confined (hfile : ¬ e.isDirectory) :
    Confined v w found (freed v found) Eq ↔ Replaceable v dir name found := by
  refine ⟨fun hconf => ⟨fun p hpf => ⟨?_, ?_⟩, ?_⟩, ?_⟩
  · obtain rfl : found = some p := hpf
    exact confined_freesOwn hw hs (fun c hc => hc) hconf
  · exact placed_empty hw hs hd hfound hc hset hp hfile hconf p hpf
  · exact placed_hides hw hs hd hfound hc hset hp hans hconf
  · exact placed_keeps hw hs hd hfound hc hset hp hans

end Placed

section Write

variable {v v1 w : Volume} {dir : ℕ} {name : Name} {data : List UInt8} {now : Stamp}
  {found : Option Slot}

/-- The new entry is put into the directory of a volume without the replaced one. -/
def Lands (v1 w : Volume) (dir : ℕ) (name : Name) : Prop :=
  ∃ b u q first size now e, Settled v1 b dir ∧
    Places b u w dir none q (freshEntry attrArchive name first size now e)

variable (hw : Working v) (hs : Sound v) (hd : Reachable v dir) (h0 : 0 ∉ name)
include hw hs hd

theorem dropOld_cleared (hr : v.findDirEntry dir name = some found)
    (hdrop : dropOld v dir name = some (some v1)) (hfree : ∀ p ∈ found, FreesOwn v p) :
    Cleared v v1 dir found := by
  obtain ⟨L, hL⟩ := reachable_lbas hs hd
  rcases dropOld_cases hw hL hdrop with ⟨hnone, rfl⟩ | ⟨p, hp, hdr⟩
  · obtain rfl := Option.some.inj (hr.symm.trans hnone)
    exact cleared_none hw hs dir
  · obtain rfl := Option.some.inj (hr.symm.trans hp)
    exact cleared_drops hw hs hd hp hdr (hfree p rfl)

include h0

/-- What is replaced decides, wherever the new entry lands. -/
theorem lands_confined (hr : v.findDirEntry dir name = some found)
    (hdrop : dropOld v dir name = some (some v1))
    (h : Sound v1 → Reachable v1 dir → (∀ p ∈ found, FreesOwn v p) → Lands v1 w dir name) :
    Confined v w found (freed v found) Eq ↔ Replaceable v dir name found := by
  have hfound : ∀ p ∈ found, Finds v dir name p := fun p hpf => by
    obtain rfl : found = some p := hpf
    exact hr
  by_cases hfree : ∀ p ∈ found, FreesOwn v p
  · have hc := dropOld_cleared hw hs hd hr hdrop hfree
    have hd1 := cleared_reachable hs hd (fun p hpf => by
      obtain ⟨hin, hsh, -⟩ := finds_inDir hw hs hd (hfound p hpf)
      exact ⟨hin, hsh⟩) hc
    obtain ⟨b, u, q, first, size, now, e, hset, hp⟩ := h hc.sound hd1 hfree
    exact placed_confined hw hs hd hfound hc hset hp (fresh_found h0 first size now e)
      (fresh_file name first size now e)
  · refine iff_of_false (fun hconf => hfree fun p hpf => ?_) fun hrep =>
      hfree fun p hpf => (hrep.1 p hpf).1
    obtain rfl : found = some p := hpf
    exact confined_freesOwn hw hs (fun c hc => hc) hconf

theorem write_lands (h : writeFileInDir v dir name data now = some (true, w)) :
    ∃ v1, dropOld v dir name = some (some v1) ∧
      (Sound v1 → Reachable v1 dir → Lands v1 w dir name) := by
  obtain ⟨L, hL⟩ := reachable_lbas hs hd
  obtain ⟨v1, v2, cs, u, q, hdrop, hw1, -, hst, hfree, -, rfl⟩ := writeFileInDir_steps hw hL h
  refine ⟨v1, hdrop, fun hs1 hd1 => ?_⟩
  obtain ⟨hset, -, hp⟩ := stored_places hw1 hs1 hd1 h0 hst hfree data.length now
  exact ⟨_, _, q, _, _, _, _, hset, hp⟩

omit hw hs hd h0 in
/-- A new entry without clusters that is dropped again. -/
theorem dropped_rewrites {u x y : Volume} {q : Slot} {e : DirEntry} (hwx : Working x)
    (hq : InDir u dir q) (h : Rewrites u x none q e) (hdr : Drops x y q) (h2 : e.cluster < 2) :
    Rewrites u y none q e.markDeleted := by
  have hqx : InDir x dir q := (rewrite_inDir h.bpb h.fat).mpr hq
  have hent : x.entryAt q = e := rewrites_new h hq
  have hnil : freedWith x q = [] := by
    rw [freedWith, hent, if_neg (by omega)]
  refine ⟨hdr.bpb.trans h.bpb, fun c => ?_, fun a p hp => ?_, fun lba hf hlba _ => ?_⟩
  · rw [hdr.fat, hnil, if_neg (by simp), h.fat]
  · rw [drops_entry hwx hqx hdr, hent]
    by_cases hpq : p = q
    · rw [hpq, setAt_same, if_pos rfl]
    · rw [setAt_ne _ _ hpq, h.entry a p hp, if_neg hpq, if_neg hpq]
  · rw [hdr.disk, updateEntry_other x q _ lba hlba]
    exact h.data lba hf hlba (by simp)

/-- The file is created empty, and found to be written. -/
theorem create_write_lands {x : Volume} {p : Slot} {now' : Stamp}
    (hcreate : writeFileInDir v dir name [] now = some (true, x)) (hf : Finds x dir name p)
    (hwrite : writeFileInDir x dir name data now' = some (true, w)) :
    ∃ v1, dropOld v dir name = some (some v1) ∧ (Sound v1 → Reachable v1 dir →
      (∀ y, InDir v1 dir y → ¬ Answers (v1.entryAt y) name) → Lands v1 w dir name) := by
  obtain ⟨L, hL⟩ := reachable_lbas hs hd
  obtain ⟨v1, v2, cs, u, q, hdrop, hw1, hstore, hst, hfree, -, hx⟩ :=
    writeFileInDir_steps hw hL hcreate
  refine ⟨v1, hdrop, fun hs1 hd1 hsilent => ?_⟩
  have hempty : cs.headD 0 = 0 := by
    rw [storeFuel, storeLoop, if_neg (by simp)] at hstore
    exact (Option.some.inj (Prod.mk.inj (Option.some.inj hstore)).1).symm
  obtain ⟨hset, hback, hp⟩ := stored_places hw1 hs1 hd1 h0 hst hfree ([] : List UInt8).length now
  rw [← hx] at hp
  obtain ⟨M, hM⟩ := reachable_lbas hp.grows.sound hp.slot.reachable
  -- nothing else has the name
  obtain rfl : p = q := by
    obtain ⟨hy, ⟨hpq, -⟩ | ⟨-, -, hans⟩⟩ := rewrites_back hp.workingW hp.rewrites hM hf
    · exact hpq
    · obtain ⟨hyb, hysame⟩ := hback p ⟨M, hM, hy⟩ hans.1.used
      have hy1 := (sameTree_inDir hs1 (stored_same hst) hd1).mp hyb
      rw [hysame, sameTree_entry (stored_same hst) hd1 hy1] at hans
      exact absurd hans (hsilent p hy1)
  have hMx : DirLbas x dir M := (rewrite_dirLbas hp.rewrites.bpb hp.rewrites.fat).mpr hM
  obtain ⟨x1, x2, cs', u', q', hdrop', hwx1, -, hst', hfree', -, rfl⟩ :=
    writeFileInDir_steps hp.workingW hMx hwrite
  rcases dropOld_cases hp.workingW hMx hdrop' with ⟨hnone, -⟩ | ⟨p', hf', hdr⟩
  · exact absurd (hnone.symm.trans hf) (by simp)
  · obtain rfl := finds_unique hf' hf
    have hr := dropped_rewrites hp.workingW (freeSlot_inDir hp.slot) hp.rewrites hdr (by
      rw [freshEntry_cluster _ _ _ _ _ (by omega), hempty]
      decide)
    have hset' := settled_trans hd1 hset
      (settled_deleted hp hback hr (markDeleted_not_end _) (markDeleted_deleted _))
    obtain ⟨hset2, -, hp2⟩ := stored_places hwx1 hset'.grows.sound
      ((hset'.grows.reach dir).mpr hd1) h0 hst' hfree' data.length now'
    exact ⟨_, _, q', _, _, _, _, settled_trans hd1 hset' hset2, hp2⟩

omit h0 in
/-- In the volume without the replaced entry nothing has its name. -/
theorem replaced_silent (hr : v.findDirEntry dir name = some found)
    (hn : found = none ∨ NotDots name) (hc : Cleared v v1 dir found) :
    ∀ y, InDir v1 dir y → ¬ Answers (v1.entryAt y) name := by
  rintro y ⟨M, hM, hy⟩ hans
  obtain ⟨L, hL⟩ := reachable_lbas hs hd
  obtain rfl := dirLbas_unique hM (hc.lbas L hL)
  have hyf : y ∉ found := fun hyf => hans.1.kept (hc.dropped y hyf)
  rw [hc.entry y hyf] at hans
  cases found with
  | none => exact findDirEntry_absent hw hL (hs.ended dir M hd hL) hr y hy hans.1 hans.2
  | some p =>
    have hn' : NotDots name := hn.resolve_left (by simp)
    obtain ⟨hp, hpn⟩ := (finds_iff hw hs hd hn').mp hr
    have hyv : VisibleAt v dir y := ⟨⟨M, hL, hy⟩, notDots_visible hn' hans.1 hans.2⟩
    exact hyf (congrArg some (hs.names dir p y hd hp hyv (hpn.trans hans.2.symm)))

end Write

section WriteFile

variable {heap : ℕ → Bool} {lookupOk createOk : Bool} {s t : Session} {path data : List UInt8}
  {now : Stamp}

theorem split_clean (h0 : 0 ∉ path) : 0 ∉ (splitParentAndName path).2 := by
  unfold splitParentAndName
  split
  · exact fun hm => h0 (List.mem_of_mem_take hm)
  · exact fun hm => h0 (List.mem_of_mem_drop (List.mem_of_mem_take hm))
  · exact fun hm => h0 (List.mem_of_mem_drop (List.mem_of_mem_take hm))

theorem vnodeWrite_writes {dir : ℕ} {name : Name} {vn : Vnode}
    (hlook : fat16Lookup true s.volume dir name = some (some vn))
    (h : vnodeWrite s vn data now = some (true, t)) :
    (∃ p, Finds s.volume dir name p) ∧
      writeFileInDir s.volume dir name data now = some (true, t.volume) := by
  have hshort := CreatingOpens.found_short hlook
  obtain ⟨p, hp, -, rfl⟩ := VfsDirectories.lookup_some.mp hlook
  rw [vnodeWrite, List.take_of_length_le hshort] at h
  obtain ⟨⟨ok, w⟩, hrun, hw⟩ := Option.map_eq_some_iff.mp h
  obtain ⟨rfl, rfl⟩ := Prod.mk.inj hw
  exact ⟨⟨p, hp⟩, hrun⟩

/-- The file is found and written over, or created first because it was not found or because the
memory to look at it was missing. -/
theorem vfsWriteFile_cases
    (h : vfsWriteFile heap lookupOk createOk s path data now = some (true, t)) :
    ∃ parent, vfsResolvePath heap s.volume (splitParentAndName path).1 = some (some parent) ∧
      ((∃ p, Finds s.volume parent.inodeNum (splitParentAndName path).2 p) ∧
        writeFileInDir s.volume parent.inodeNum (splitParentAndName path).2 data now =
          some (true, t.volume) ∨
      (lookupOk = true → s.volume.findDirEntry parent.inodeNum (splitParentAndName path).2 =
          some none) ∧ ∃ x p,
        writeFileInDir s.volume parent.inodeNum (splitParentAndName path).2 [] now =
          some (true, x) ∧ Finds x parent.inodeNum (splitParentAndName path).2 p ∧
        writeFileInDir x parent.inodeNum (splitParentAndName path).2 data now =
          some (true, t.volume)) := by
  obtain ⟨r, hr, h⟩ := Option.bind_eq_some_iff.mp h
  cases r with
  | none => simp at h
  | some parent =>
    refine ⟨parent, hr, ?_⟩
    obtain ⟨found, hfound, h⟩ := Option.bind_eq_some_iff.mp h
    cases found with
    | some vn =>
      obtain ⟨p, hp, -, hvn⟩ := VfsDirectories.lookup_some.mp hfound
      exact Or.inl (vnodeWrite_writes (VfsDirectories.lookup_some.mpr ⟨p, hp, rfl, hvn⟩) h)
    | none =>
      right
      obtain ⟨⟨made, x⟩, hmade, h⟩ := Option.bind_eq_some_iff.mp h
      cases made with
      | none => simp at h
      | some vn =>
        obtain ⟨hcreate, hlook⟩ := CreatingOpens.vnodeCreate_cases hmade
        obtain ⟨⟨p, hp⟩, hwrite⟩ := vnodeWrite_writes hlook h
        refine ⟨fun hok => ?_, x.volume, p, hcreate, hp, hwrite⟩
        rw [hok] at hfound
        unfold fat16Lookup at hfound
        obtain ⟨q, hq, hfound⟩ := Option.bind_eq_some_iff.mp hfound
        cases q with
        | none => exact hq
        | some q => simp at hfound

/-- What a successful `vfs_write_file` does to the entries that it does not name. -/
theorem write_file_confined (hw : Working s.volume) (hs : Sound s.volume) (h0 : 0 ∉ path)
    (h : vfsWriteFile heap lookupOk createOk s path data now = some (true, t)) :
    ∃ parent, vfsResolvePath heap s.volume (splitParentAndName path).1 = some (some parent) ∧
      (Reachable s.volume parent.inodeNum → ∃ found,
        s.volume.findDirEntry parent.inodeNum (splitParentAndName path).2 = some found ∧
        (lookupOk = true ∨ found = none ∨ NotDots (splitParentAndName path).2 →
          (Confined s.volume t.volume found (freed s.volume found) Eq ↔
            Replaceable s.volume parent.inodeNum (splitParentAndName path).2 found))) := by
  obtain ⟨parent, hparent, hcases⟩ := vfsWriteFile_cases h
  refine ⟨parent, hparent, fun hd => ?_⟩
  have h0' := split_clean h0
  generalize (splitParentAndName path).2 = name at hcases h0' ⊢
  rcases hcases with ⟨⟨p, hp⟩, hwrite⟩ | ⟨hnone, x, p, hcreate, hf, hwrite⟩
  · refine ⟨some p, hp, fun _ => ?_⟩
    obtain ⟨v1, hdrop, hlands⟩ := write_lands hw hs hd h0' hwrite
    exact lands_confined hw hs hd h0' hp hdrop fun hs1 hd1 _ => hlands hs1 hd1
  · obtain ⟨v1, hdrop, hlands⟩ := create_write_lands hw hs hd h0' hcreate hf hwrite
    obtain ⟨L, hL⟩ := reachable_lbas hs hd
    obtain ⟨found, hfound⟩ := findDirEntry_returns hw hL name
    refine ⟨found, hfound, fun hcond => ?_⟩
    have hn : found = none ∨ NotDots name := by
      rcases hcond with hok | hn
      · exact Or.inl (Option.some.inj (hfound.symm.trans (hnone hok)))
      · exact hn
    refine lands_confined hw hs hd h0' hfound hdrop fun hs1 hd1 hfree => hlands hs1 hd1 ?_
    exact replaced_silent hw hs hd hfound hn (dropOld_cleared hw hs hd hfound hdrop hfree)

end WriteFile

end Vlsmc.PathWrites
