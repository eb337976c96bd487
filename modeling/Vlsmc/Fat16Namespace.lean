import Vlsmc.Fat16Operations

/-!
# Making directories and renaming

`fat16_mkdir` writes the slot of the new entry, the table and the new cluster;
these are separate regions of the disk, so the entry can be seen as added last.
`fat16_rename` moves an entry to the first free slot of the new directory.
-/

set_option autoImplicit false

namespace Vlsmc.Fat16Namespace
open Vlsmc.Fat16Layout Vlsmc.Fat16Names Vlsmc.Fat16Volume Vlsmc.Fat16Files
open Vlsmc.Fat16Geometry Vlsmc.Fat16Chains Vlsmc.Fat16Directory Vlsmc.Fat16Soundness
open Vlsmc.Fat16Updates Vlsmc.Fat16Growth Vlsmc.Fat16Effects Vlsmc.Fat16Operations
open Vlsmc.Words

section NewDirectory

theorem dotEntry_isDot (cluster : ℕ) : isDot (dotEntry [dot] cluster) := Or.inl rfl

theorem dotDotEntry_isDot (cluster : ℕ) : isDot (dotEntry [dot, dot] cluster) := Or.inr rfl

theorem getEntry_dotSector (cluster parent i : ℕ) :
    isDot (getEntry (dotSector cluster parent) i) ∧ i < 2 ∨
      (getEntry (dotSector cluster parent) i).isEnd ∧ 2 ≤ i := by
  unfold dotSector
  by_cases h1 : i = 1
  · subst h1
    rw [getEntry_setEntry]
    exact Or.inl ⟨dotDotEntry_isDot parent, by decide⟩
  · rw [getEntry_setEntry_ne _ _ _ _ (Ne.symm h1)]
    by_cases h0 : i = 0
    · subst h0
      rw [getEntry_setEntry]
      exact Or.inl ⟨dotEntry_isDot cluster, by decide⟩
    · rw [getEntry_setEntry_ne _ _ _ _ (Ne.symm h0)]
      exact Or.inr ⟨getEntry_zero i, by omega⟩

variable {v w : Volume} {c parent : ℕ} (hc : InRange v.bpb c) (hpos : 1 ≤ v.bpb.spc)
  (hfirst : w.disk.data (v.bpb.clusterToLba c) = dotSector c parent)
  (hrest : ∀ lba ∈ v.bpb.clusterLbas c, lba ≠ v.bpb.clusterToLba c →
    w.disk.data lba = zeroSector)
include hfirst hrest

theorem newDir_entry {p : Slot} (hp : p ∈ slotsOf (v.bpb.clusterLbas c)) :
    isDot (w.entryAt p) ∧ p.1 = v.bpb.clusterToLba c ∧ p.2 < 2 ∨
      (w.entryAt p).isEnd ∧ (p.1 = v.bpb.clusterToLba c → 2 ≤ p.2) := by
  by_cases h : p.1 = v.bpb.clusterToLba c
  · rw [Volume.entryAt, h, hfirst]
    rcases getEntry_dotSector c parent p.2 with ⟨hd, hi⟩ | ⟨he, hi⟩
    · exact Or.inl ⟨hd, rfl, hi⟩
    · exact Or.inr ⟨he, fun _ => hi⟩
  · rw [Volume.entryAt, hrest p.1 (mem_slotsOf.mp hp).1 h]
    exact Or.inr ⟨getEntry_zero _, fun he => absurd he h⟩

theorem newDir_hidden {p : Slot} (hp : p ∈ slotsOf (v.bpb.clusterLbas c)) :
    ¬ Visible (w.entryAt p) := by
  intro hv
  rcases newDir_entry hfirst hrest hp with ⟨hd, -⟩ | ⟨he, -⟩
  · exact hv.named hd
  · exact hv.used he

include hc hpos

theorem newDir_ended : Ended w (v.bpb.clusterLbas c) := by
  obtain ⟨l, hl⟩ := clusterLbas_first hc.1 hc.2 hpos
  have hslots : slotsOf (v.bpb.clusterLbas c) = (v.bpb.clusterToLba c, 0)::
      (v.bpb.clusterToLba c, 1)::((List.range' 2 14).map fun i => (v.bpb.clusterToLba c, i))++
        slotsOf l := by
    rw [hl]
    rfl
  have hnd := slotsOf_nodup (clusterLbas_nodup v.bpb hc.1 hc.2)
  have hent := fun p => newDir_entry (p := p) hfirst hrest
  generalize hM : (List.range' 2 14).map (fun i => (v.bpb.clusterToLba c, i))++slotsOf l = M
  have hM' : slotsOf (v.bpb.clusterLbas c) = (v.bpb.clusterToLba c, 0)::
      (v.bpb.clusterToLba c, 1)::M := by
    rw [hslots, ← hM]
    rfl
  unfold Ended
  rw [hM'] at hnd hent ⊢
  -- behind the two dot entries everything is cleared
  have hend : ∀ p ∈ M, (w.entryAt p).isEnd := by
    intro p hp
    obtain ⟨h0, hnd⟩ := List.nodup_cons.mp hnd
    obtain ⟨h1, -⟩ := List.nodup_cons.mp hnd
    rcases hent p (by simp [hp]) with ⟨-, hp1, hp2⟩ | ⟨he, -⟩
    · have hcase : p.2 = 0 ∨ p.2 = 1 := by omega
      rcases hcase with h | h
      · exact absurd (List.mem_cons_of_mem _ hp) ((Prod.ext hp1 h : p = (_, 0)) ▸ h0)
      · exact absurd hp ((Prod.ext hp1 h : p = (_, 1)) ▸ h1)
    · exact he
  have hdots : ∀ i < 2, ¬ (w.entryAt (v.bpb.clusterToLba c, i)).isEnd := by
    intro i hi
    rw [Volume.entryAt, hfirst]
    have hcase : i = 0 ∨ i = 1 := by omega
    rcases hcase with rfl | rfl
    · rw [dotSector, getEntry_setEntry_ne _ _ _ _ Nat.one_ne_zero, getEntry_setEntry]
      exact (by decide : ¬ (dot = 0x00))
    · rw [dotSector, getEntry_setEntry]
      exact (by decide : ¬ (dot = 0x00))
  refine List.pairwise_cons.mpr ⟨fun p _ he => absurd he (hdots 0 (by decide)), ?_⟩
  refine List.pairwise_cons.mpr ⟨fun p _ he => absurd he (hdots 1 (by decide)), ?_⟩
  exact List.pairwise_of_forall_mem_list fun a _ b hb _ => hend b hb

end NewDirectory

/-- A sector of a directory belongs to no free cluster. -/
theorem dir_sector_free {v : Volume} {d c : ℕ} {q : Slot} (hq : InDir v d q)
    (hc : InRange v.bpb c) (h0 : v.fat c = 0) : q.1 ∉ v.bpb.clusterLbas c := by
  intro hm
  obtain ⟨L, hL, hqL⟩ := hq
  have hql := (mem_slotsOf.mp hqL).1
  rcases hL with ⟨-, rfl⟩ | ⟨-, t, ht, rfl⟩
  · exact root_not_cluster v.bpb hc.1 hc.2 hm hql
  · obtain ⟨y, hy, hyl⟩ := List.mem_flatMap.mp hql
    have hyr := fatChain_range ht y hy
    have hyc : y ≠ c := fun h => fatChain_fat_ne_zero ht y hy (h ▸ h0)
    exact clusterLbas_disjoint v.bpb hyr.1 hyr.2 hc.1 hc.2 hyc hyl hm

section Mkdir

variable {v : Volume} {d : ℕ} {q : Slot} {c : ℕ} {e : DirEntry}

/-- The volume at the end of `fat16_mkdir`. -/
def withNewDir (v : Volume) (q : Slot) (c parent : ℕ) (f : DirEntry → DirEntry) : Volume :=
  let u := ((v.setFat c 0xFFFF).updateEntry q f).flushFat
  { u with disk := u.disk.writeAll (newDirWrites u.bpb c parent) }

theorem newDirWrites_mem {b : Bpb} {parent : ℕ} (hc : InRange b c) (hpos : 1 ≤ b.spc)
    {x : ℕ × Sector} (hx : x ∈ newDirWrites b c parent) :
    x.1 ∈ b.clusterLbas c ∧ x.2 = if x.1 = b.clusterToLba c then dotSector c parent
      else zeroSector := by
  have ho := offset_le b hc.2
  have hs := dataStart_lt b
  have hlba := clusterToLba_eq b hc.1 hc.2
  rw [mem_clusterLbas b hc.1 hc.2, ← hlba]
  rcases List.mem_cons.mp hx with rfl | hx
  · exact ⟨⟨le_refl _, by omega⟩, (if_pos rfl).symm⟩
  · obtain ⟨s, hsr, rfl⟩ := List.mem_map.mp hx
    rw [List.mem_range'_1] at hsr
    have hu : u32 (b.clusterToLba c+s) = b.clusterToLba c+s := by
      unfold u32
      omega
    simp only [hu]
    refine ⟨⟨by omega, by omega⟩, (if_neg (by omega)).symm⟩

theorem newDirWrites_cover {b : Bpb} {parent lba : ℕ} (hc : InRange b c)
    (hl : lba ∈ b.clusterLbas c) : ∃ x ∈ newDirWrites b c parent, x.1 = lba := by
  have ho := offset_le b hc.2
  have hs := dataStart_lt b
  have hlba := clusterToLba_eq b hc.1 hc.2
  rw [mem_clusterLbas b hc.1 hc.2, ← hlba] at hl
  by_cases h : lba = b.clusterToLba c
  · exact ⟨_, List.mem_cons_self, h.symm⟩
  · refine ⟨_, List.mem_cons_of_mem _ (List.mem_map.mpr
      ⟨lba-b.clusterToLba c, List.mem_range'_1.mpr (by omega), rfl⟩), ?_⟩
    unfold u32
    omega

/-- `w` is `v` with a directory added: the slot `q`, the table entry of `c` and
the sectors of `c` are written. -/
structure AddsDir (v w : Volume) (q : Slot) (c parent : ℕ) (e : DirEntry) : Prop where
  bpb : w.bpb = v.bpb
  fat : ∀ x, w.fat x = if x = c then 0xFFFF else v.fat x
  slot : w.disk.data q.1 = setEntry (v.disk.data q.1) q.2 e
  data : ∀ lba, ¬ fatRegion v.bpb lba → lba ∉ v.bpb.clusterLbas c → lba ≠ q.1 →
    w.disk.data lba = v.disk.data lba
  first : w.disk.data (v.bpb.clusterToLba c) = dotSector c parent
  rest : ∀ lba ∈ v.bpb.clusterLbas c, lba ≠ v.bpb.clusterToLba c → w.disk.data lba = zeroSector

theorem withNewDir_adds {f : DirEntry → DirEntry} (hw : Working v) (hin : InDir v d q)
    (hc : InRange v.bpb c) (h0 : v.fat c = 0) (he : f (v.entryAt q) = e) (parent : ℕ) :
    AddsDir v (withNewDir v q c parent f) q c parent e ∧
      Working (withNewDir v q c parent f) ∧ Flushed (withNewDir v q c parent f) := by
  have hread := inDir_readable hw hin
  have hqc : q.1 ∉ v.bpb.clusterLbas c := dir_sector_free hin hc h0
  have hqf : ¬ fatRegion v.bpb q.1 := by
    obtain ⟨L, hL, hqL⟩ := hin
    exact dirLbas_not_fat hL (mem_slotsOf.mp hqL).1
  generalize hu : (v.setFat c 0xFFFF).updateEntry q f = u
  generalize hwd : withNewDir v q c parent f = w
  have hwdef : w = { u.flushFat with
      disk := u.flushFat.disk.writeAll (newDirWrites v.bpb c parent) } := by
    rw [← hwd, ← hu]
    rfl
  have hub : u.bpb = v.bpb := by rw [← hu]; rfl
  have hum : u.mounted = v.mounted := by rw [← hu]; rfl
  have husize : u.disk.size = v.disk.size := by rw [← hu]; exact updateEntry_size _ _ _
  have hout : ∀ lba, lba ∉ v.bpb.clusterLbas c → w.disk.data lba = u.flushFat.disk.data lba := by
    intro lba hl
    rw [hwdef]
    refine writeAll_other _ _ _ fun x hx heq => hl ?_
    exact heq ▸ (newDirWrites_mem hc hw.cluster hx).1
  have hcluster : ∀ lba ∈ v.bpb.clusterLbas c, w.disk.data lba =
      if lba = v.bpb.clusterToLba c then dotSector c parent else zeroSector := by
    intro lba hl
    rw [hwdef]
    apply writeAll_same
    · rw [flushFat_size, husize]
      exact lt_of_lt_of_le (cluster_lt_dataEnd v.bpb hc.1 hc.2 hl) hw.accepts
    · intro x hx heq
      rw [← heq]
      exact (newDirWrites_mem hc hw.cluster hx).2
    · exact Or.inr (newDirWrites_cover hc hl)
  have hwu : Working u := working_congr hw hub hum husize
  refine ⟨⟨by rw [hwdef]; exact hub, fun x => ?_, ?_, fun lba hf hl hne => ?_, ?_,
    fun lba hl hne => ?_⟩, working_congr hwu (by rw [hwdef]; rfl) (by rw [hwdef]; rfl) ?_, ?_⟩
  · rw [hwdef, ← hu]
    exact setFat_fat v c 0xFFFF x (by decide)
  · rw [hout q.1 hqc, flushFat_frame u q.1 (by rwa [hub]), ← hu, Volume.updateEntry]
    rw [setFat_disk, write_data _ _ _ hread, if_pos rfl, load_eq _ _ hread, ← he]
    rfl
  · rw [hout lba hl, flushFat_frame u lba (by rwa [hub]), ← hu]
    exact updateEntry_other _ q f lba hne
  · obtain ⟨l, hl⟩ := clusterLbas_first hc.1 hc.2 hw.cluster
    rw [hcluster _ (by rw [hl]; simp), if_pos rfl]
  · rw [hcluster lba hl, if_neg hne]
  · rw [hwdef]
    exact (writeAll_size _ _).trans (flushFat_size u)
  · refine flushed_congr u.flushFat (flushFat_flushed u hwu) (by rw [hwdef]) (by rw [hwdef])
      fun lba hlba => hout lba fun hm => ?_
    rw [flushFat_bpb, hub] at hlba
    exact fatRegion_not_cluster v.bpb hc.1 hc.2 hm hlba

/-- `w` before its slot `q` was written. -/
def beforeSlot (v w : Volume) (q : Slot) : Volume :=
  { w with disk := { w.disk with
    data := fun lba => if lba = q.1 then v.disk.data q.1 else w.disk.data lba } }

theorem beforeSlot_other (v w : Volume) (q : Slot) {lba : ℕ} (h : lba ≠ q.1) :
    (beforeSlot v w q).disk.data lba = w.disk.data lba := if_neg h

theorem beforeSlot_entryAt {w : Volume} (hslot : w.disk.data q.1 =
    setEntry (v.disk.data q.1) q.2 e) (p : Slot) :
    w.entryAt p = setAt (beforeSlot v w q).entryAt q e p := by
  refine Eq.trans ?_ (entryAt_write q (beforeSlot v w q).disk.data e p)
  have hq : (beforeSlot v w q).disk.data q.1 = v.disk.data q.1 := if_pos rfl
  rw [hq, ← hslot, Volume.entryAt]
  by_cases h : p.1 = q.1
  · rw [if_pos h, h]
  · rw [if_neg h, beforeSlot_other v w q h]

/-- Before the slot is written, the new cluster is loose and nothing else has changed. -/
theorem addsDir_before {w : Volume} {parent : ℕ} (hs : Sound v) (hc : InRange v.bpb c)
    (h0 : v.fat c = 0) (h : AddsDir v w q c parent e) :
    Grows v (beforeSlot v w q) ∧ SameTree v (beforeSlot v w q) ∧
      Loose (beforeSlot v w q) c [c] := by
  have hdata : ∀ lba, ¬ fatRegion v.bpb lba → lba ∉ v.bpb.clusterLbas c →
      (beforeSlot v w q).disk.data lba = v.disk.data lba := by
    intro lba hf hl
    by_cases hlq : lba = q.1
    · rw [hlq]
      exact if_pos rfl
    · rw [beforeSlot_other v w q hlq]
      exact h.data lba hf hl hlq
  have hfat : ∀ y, v.fat y ≠ 0 → (beforeSlot v w q).fat y = v.fat y := by
    intro y hy
    have hyc : y ≠ c := fun he => hy (he ▸ h0)
    exact (h.fat y).trans (if_neg hyc)
  have hcl : ∀ y, InRange v.bpb y → v.fat y ≠ 0 → ∀ lba ∈ v.bpb.clusterLbas y,
      (beforeSlot v w q).disk.data lba = v.disk.data lba := by
    intro y hy hne lba hl
    have hyc : y ≠ c := fun he => hne (he ▸ h0)
    exact hdata lba (fatRegion_not_cluster v.bpb hy.1 hy.2 hl)
      fun hm => clusterLbas_disjoint v.bpb hy.1 hy.2 hc.1 hc.2 hyc hl hm
  have hroot : ∀ lba ∈ v.bpb.rootLbas,
      (beforeSlot v w q).disk.data lba = v.disk.data lba := fun lba hl =>
    hdata lba (fatRegion_not_root v.bpb hl) fun hm => root_not_cluster v.bpb hc.1 hc.2 hm hl
  have ht : SameTree v (beforeSlot v w q) := sameTree_of_free h.bpb hfat hcl hroot
  refine ⟨grows_of_free hs h.bpb hfat hcl hroot, ht, ⟨rfl, by rw [ht.bpb]; exact hc, ?_⟩,
    fun y hy ho => ?_⟩
  · have : (beforeSlot v w q).fat c = 0xFFFF := (h.fat c).trans (if_pos rfl)
    rw [this]
    exact (by decide : 0xFFF8 ≤ 0xFFFF)
  · rw [List.mem_singleton.mp hy] at ho
    exact owned_fat ((sameTree_owned hs ht c).mp ho) h0

theorem addsDir_spec {w : Volume} {parent : ℕ} (hs : Sound v) (hpos : 1 ≤ v.bpb.spc)
    (hq : FreeSlot v d q) (hc : InRange v.bpb c) (h0 : v.fat c = 0) (hev : Visible e)
    (hcl : e.cluster = c)
    (hname : ∀ p, VisibleAt v d p → entryName (v.entryAt p) ≠ entryName e)
    (h : AddsDir v w q c parent e) : Sound w ∧ Spares v w none := by
  obtain ⟨hg, ht, hloose⟩ := addsDir_before hs hc h0 h
  have hlbas : ∀ L, DirLbas (beforeSlot v w q) c L → L = v.bpb.clusterLbas c := by
    intro L hL
    rw [dirLbas_unique hL (Or.inr ⟨hc.1, [], hloose.1, rfl⟩), hg.bpb]
    simp [chainLbas]
  obtain ⟨hsw, hsp, -, -, -⟩ := insert_spec (w := w) (e := e) hg.sound
    (freeSlot_sameTree hs ht hq) hev
    (fun p hp => by
      have hpv := (hg.visible d p hq.reachable).mp hp
      rw [(hg.kept d p hq.reachable hpv).entry]
      exact hname p hpv)
    rfl (fun _ => rfl) (fun lba hl => (beforeSlot_other v w q hl).symm)
    (beforeSlot_entryAt h.slot)
    (fun _ => by
      rw [hcl]
      exact ⟨[], hloose⟩)
    (fun _ _ => by
      rw [hcl]
      refine ⟨fun r hr => ?_, fun L hL => ?_⟩
      · obtain ⟨⟨L, hL, hrL⟩, hrv⟩ := hr
        have hL' : DirLbas (beforeSlot v w q) c L := (rewrite_dirLbas rfl fun _ => rfl).mp hL
        rw [hlbas L hL'] at hrL
        exact newDir_hidden h.first h.rest hrL hrv
      · rw [hlbas L hL]
        exact newDir_ended hc hpos h.first h.rest)
  exact ⟨hsw, spares_trans hg.bpb (grows_spares hg) hsp⟩

theorem fat16Mkdir_spec {name : List UInt8} (hw : Working v) (hv : WellFormed v)
    (hd : Reachable v d) (hn : Fits v d name) (now : Stamp) :
    ∃ ok w, fat16Mkdir v d name now = some (ok, w) ∧ Working w ∧ WellFormed w ∧
      w.bpb = v.bpb ∧ Spares v w none := by
  have hmount : ¬ v.mounted = false := by simp [hw.mounted]
  have hsame : Spares v v none := grows_spares (grows_refl hv.sound)
  rcases lookup_cases hw hv.sound hd hn.notDots with ⟨hr, habs⟩ | ⟨p, hr, -⟩
  · obtain ⟨r, u, hfree, hwu, hfu, hg, hslot⟩ := findFreeDirEntry_spec hw hv.sound hv.flushed hd
    have hsp := grows_spares hg
    cases r with
    | none =>
      exact ⟨false, u, by simp [fat16Mkdir, hmount, hr, hfree], hwu, ⟨hg.sound, hfu⟩, hg.bpb, hsp⟩
    | some q =>
      have hq := hslot q rfl
      rcases allocCluster_cases u with ⟨ha, -⟩ | ⟨c, ha, hc, h0⟩
      · refine ⟨false, u, ?_, hwu, ⟨hg.sound, hfu⟩, hg.bpb, hsp⟩
        simp [fat16Mkdir, hmount, hr, hfree, ha]
      · have hc2 := hc.1
        have hcr := hc.2
        have htot := total_le u.bpb
        have hent : ∀ p, VisibleAt u d p → VisibleAt v d p ∧ u.entryAt p = v.entryAt p := by
          intro p hp
          have hpv := (hg.visible d p hd).mp hp
          exact ⟨hpv, (hg.kept d p hd hpv).entry⟩
        obtain ⟨hadds, hww, hfw⟩ := withNewDir_adds (f := freshEntry attrDirectory name c 0 now)
          hwu (freeSlot_inDir hq) hc h0 rfl d
        obtain ⟨hsw, hspw⟩ := addsDir_spec hg.sound hwu.cluster hq hc h0
          (freshEntry_visible hn (by decide) _ _ _ _) (freshEntry_cluster _ _ _ _ _ (by omega))
          (fun p hp => by
            obtain ⟨hpv, he⟩ := hent p hp
            rw [he, freshEntry_name]
            exact hn.absent _ p hpv (habs p hpv)) hadds
        refine ⟨true, _, ?_, hww, ⟨hsw, hfw⟩, hadds.bpb.trans hg.bpb,
          spares_trans hg.bpb hsp hspw⟩
        obtain ⟨k, rfl⟩ : ∃ k, c = k+1 := ⟨c-1, by omega⟩
        simp only [fat16Mkdir, if_neg hmount, hr, hfree, ha, Option.bind_eq_bind,
          Option.bind_some]
        rfl
  · exact ⟨false, v, by simp [fat16Mkdir, hmount, hr], hw, hv, rfl, hsame⟩

end Mkdir

section Rename

variable {v : Volume} {d d' : ℕ} {old new : Slot} {e : DirEntry}

/-- What moving an entry leaves in place. -/
structure Moves (v w : Volume) (d : ℕ) (old new : Slot) (e : DirEntry) : Prop where
  bpb : w.bpb = v.bpb
  sound : Sound w
  spares : Spares v w (some old)
  visible : ∀ a p, VisibleAt v a p → p ≠ old → VisibleAt w a p ∧ w.entryAt p = v.entryAt p
  moved : VisibleAt w d new ∧ w.entryAt new = e
  chain : ∀ c l, FatChain w c l ↔ FatChain v c l
  data : ∀ a p l, Reachable v a → VisibleAt v a p → ¬ (v.entryAt p).isDirectory →
    FatChain v (v.entryAt p).cluster l → SameData v w l

theorem moveEntry_spec (hs : Sound v) (hw : Working v) (hd : Reachable v d)
    (hold : VisibleAt v d old) (hnew : FreeSlot v d' new) (hev : Visible e)
    (hec : e.cluster = (v.entryAt old).cluster)
    (hed : e.isDirectory → (v.entryAt old).isDirectory)
    (hname : ∀ p, VisibleAt v d' p → entryName (v.entryAt p) ≠ entryName e) :
    Moves v (moveEntry v old new e) d' old new e := by
  have hin := freeSlot_inDir hnew
  have hne : old ≠ new := fun h => freeSlot_not_visible hnew (h ▸ hold.2)
  have hent := moveEntry_entryAt v old new e hne (inDir_readable hw hold.1)
    (inDir_readable hw hin)
  obtain ⟨hb, -, ht, -⟩ := moveEntry_table v old new e
  have hfat : ∀ x, (moveEntry v old new e).fat x = v.fat x := fun x => by
    rw [Volume.fat, ht, Volume.fat]
  obtain ⟨hsw, -⟩ := sound_move hs hb hfat hd hold hnew hev hec hed hname hent
  have hvis : ∀ a p, VisibleAt v a p → p ≠ old →
      VisibleAt (moveEntry v old new e) a p ∧
        (moveEntry v old new e).entryAt p = v.entryAt p := by
    intro a p hp hpo
    have hpn : p ≠ new := fun h => freeSlot_not_visible hnew (h ▸ hp.2)
    have he : (moveEntry v old new e).entryAt p = v.entryAt p := by
      rw [hent, setAt_ne _ _ hpn, setAt_ne _ _ hpo]
    exact ⟨⟨(rewrite_inDir hb hfat).mpr hp.1, he ▸ hp.2⟩, he⟩
  have hdata : ∀ a p l, Reachable v a → VisibleAt v a p → ¬ (v.entryAt p).isDirectory →
      FatChain v (v.entryAt p).cluster l → SameData v (moveEntry v old new e) l := by
    intro a p l ha hp hfile hl lba hlba
    refine moveEntry_other v old new e lba (fun h => ?_) fun h => ?_
    · exact dir_sector_file hs hd hold.1 ha hp hfile hl (h ▸ hlba)
    · exact dir_sector_file hs hnew.reachable hin ha hp hfile hl (h ▸ hlba)
  have hnewent : (moveEntry v old new e).entryAt new = e := by rw [hent, setAt_same]
  refine ⟨hb, hsw, fun a ha hc => ?_, hvis, ⟨⟨(rewrite_inDir hb hfat).mpr hin, by rwa [hnewent]⟩,
    hnewent⟩, fun c l => rewrite_chain hb hfat, hdata⟩
  have hstep : ∀ x y, Child v x y → (∃ p, VisibleAt v x p ∧ (v.entryAt p).isDirectory ∧ 2 ≤ y ∧
      (v.entryAt p).cluster = y ∧ p ≠ old) ∨ (v.entryAt old).isDirectory ∧
      2 ≤ (v.entryAt old).cluster ∧ (v.entryAt old).cluster = y := by
    rintro x y ⟨p, hp, hdir, h2, hcl⟩
    by_cases hpo : p = old
    · subst hpo
      exact Or.inr ⟨hdir, hcl ▸ h2, hcl⟩
    · exact Or.inl ⟨p, hp, hdir, h2, hcl, hpo⟩
  have haw : Reachable (moveEntry v old new e) a := by
    induction ha with
    | refl => exact Relation.ReflTransGen.refl
    | @tail x y hx hxy ih =>
      have hcx : Clear v (some old) x := fun p hp h1 h2 hb => hc p hp h1 h2 (hb.tail hxy)
      rcases hstep x y hxy with ⟨p, hp, hdir, h2, hcl, hpo⟩ | ⟨hdir, h2, hcl⟩
      · obtain ⟨hp', he⟩ := hvis x p hp hpo
        exact (ih hcx).tail ⟨p, hp', by rw [he]; exact ⟨hdir, h2, hcl⟩⟩
      · exact absurd (hcl ▸ Relation.ReflTransGen.refl) (hc old rfl hdir h2)
  refine ⟨haw, fun p hp hpo => ?_⟩
  obtain ⟨hp', he⟩ := hvis a p hp (by simpa using Ne.symm (by simpa using hpo))
  exact ⟨hp', he, fun hfile l hl => ⟨(rewrite_chain hb hfat).mpr hl, hdata a p l ha hp hfile hl⟩⟩

/-- `fat16_rename` between reachable directories. -/
theorem fat16Rename_spec {oldName newName : List UInt8} (hw : Working v) (hv : WellFormed v)
    (hd : Reachable v d) (hd' : Reachable v d') (ho : NotDots oldName)
    (hn : Fits v d' newName) :
    ∃ ok w, fat16Rename v d oldName d' newName = some (ok, w) ∧ Working w ∧ WellFormed w ∧
      (ok = false → Grows v w) ∧
      (ok = true → ∃ u x old new, Grows v u ∧ VisibleAt v d old ∧
        entryName (v.entryAt old) = oldName.map upper ∧
        (∀ p, VisibleAt v d' p → entryName (v.entryAt p) ≠ newName.map upper) ∧
        Moves u x d' old new (format83Name newName (v.entryAt old)) ∧ Grows x w) := by
  have hmount : ¬ v.mounted = false := by simp [hw.mounted]
  have hsame : Grows v v := grows_refl hv.sound
  rcases lookup_cases hw hv.sound hd ho with ⟨hr, -⟩ | ⟨old, hr, hold, hname, -⟩
  · exact ⟨false, v, by simp [fat16Rename, hmount, hr], hw, hv, fun _ => hsame, by simp⟩
  · rcases lookup_cases hw hv.sound hd' hn.notDots with ⟨hr', habs⟩ | ⟨p, hr', -⟩
    · obtain ⟨r, u, hfree, hwu, hfu, hg, hslot⟩ :=
        findFreeDirEntry_spec hw hv.sound hv.flushed hd'
      cases r with
      | none =>
        exact ⟨false, u, by simp [fat16Rename, hmount, hr, hr', hfree], hwu, ⟨hg.sound, hfu⟩,
          fun _ => hg, by simp⟩
      | some new =>
        have hnew := hslot new rfl
        have holdu := (hg.visible d old hd).mpr hold
        have he := (hg.kept d old hd hold).entry
        have hload : u.loadEntry old = v.entryAt old := (loadEntry_eq hwu holdu.1).trans he
        have hmoves : Moves u (moveEntry u old new (format83Name newName (v.entryAt old))) d' old
            new (format83Name newName (v.entryAt old)) := by
          refine moveEntry_spec hg.sound hwu ((hg.reach d).mpr hd) holdu hnew
            (hn.visible _ hold.2.shown) (by rw [he]; rfl) (by rw [he]; exact id) fun p hp => ?_
          have hpv := (hg.visible d' p hd').mp hp
          rw [(hg.kept d' p hd' hpv).entry]
          exact hn.absent _ p hpv (habs p hpv)
        obtain ⟨hb, hm, -, hsize⟩ :=
          moveEntry_table u old new (format83Name newName (v.entryAt old))
        have hwx := working_congr hwu hb hm hsize
        have hgx := grows_flush hmoves.sound
        refine ⟨true, (moveEntry u old new (format83Name newName (v.entryAt old))).flushFat, ?_,
          working_congr hwx rfl rfl (flushFat_size _),
          ⟨hgx.sound, flushFat_flushed _ hwx⟩, by simp, fun _ => ⟨u, _, old, new, hg, hold, hname,
          habs, hmoves, hgx⟩⟩
        simp only [fat16Rename, if_neg hmount, hr, hr', hfree, hload, Option.bind_eq_bind,
          Option.bind_some]
        rfl
    · exact ⟨false, v, by simp [fat16Rename, hmount, hr, hr'], hw, hv, fun _ => hsame, by simp⟩

end Rename

end Vlsmc.Fat16Namespace
