import Vlsmc.FileProtection

/-!
# A `write_file_in_dir` that fails

The call gives up in three places: the entry is protected, the disk is full, or the
directory is. The old entry and its clusters are given back before the last two, and the
new clusters stay allocated in the last one. A failed call changes nothing exactly if it
was refused, or there was no such entry and nothing had been stored or all of it was given
back.
-/

set_option autoImplicit false

namespace Vlsmc.FailedWrites
open Vlsmc.Fat16Layout Vlsmc.Fat16Names Vlsmc.Fat16Volume Vlsmc.Fat16Files
open Vlsmc.Fat16Geometry Vlsmc.Fat16Chains Vlsmc.Fat16Directory Vlsmc.Fat16Soundness
open Vlsmc.Fat16Growth Vlsmc.Fat16Store Vlsmc.Fat16Effects Vlsmc.Fat16Operations
open Vlsmc.Fat16RoundTrip Vlsmc.Fat16Runs Vlsmc.FileProtection

/-- The entry of a cluster in one copy of the table on disk. -/
def diskFat (v : Volume) (copy c : ℕ) : UInt16 :=
  tableEntry (v.disk.data (v.bpb.fatStartLba+copy*v.bpb.fatSectors+c/256)) (c%256)

/-- Every entry is where it was, every file has the same bytes, and the same clusters are
marked as allocated, in memory and in every copy on disk. -/
structure Unchanged (v w : Volume) : Prop where
  entries : ∀ d p, Reachable v d → VisibleAt v d p →
    Reachable w d ∧ VisibleAt w d p ∧ w.entryAt p = v.entryAt p
  contents : ∀ x, FileAt v x → ∀ offset n,
    readEntry w (w.entryAt x.2) offset n = readEntry v (v.entryAt x.2) offset n
  table : ∀ c, InRange v.bpb c → (w.fat c = 0 ↔ v.fat c = 0)
  disk : ∀ copy < v.bpb.fats, ∀ c, InRange v.bpb c → (diskFat w copy c = 0 ↔ diskFat v copy c = 0)

/-- The entry is there and has +gc. -/
def Refused (v : Volume) (dir : ℕ) (name : List UInt8) : Prop :=
  ∃ p, Named v dir name p ∧ (v.entryAt p).attributes &&& attrProtectModify ≠ 0

def Absent (v : Volume) (dir : ℕ) (name : List UInt8) : Prop := ∀ p, ¬ Named v dir name p

/-- There is nothing to store, or more than the free clusters hold. -/
def NothingStored (v : Volume) (data : List UInt8) : Prop :=
  data = [] ∨ 512*(freeClusters v*v.bpb.spc) < data.length

section Unchanged

variable {v w : Volume}

theorem unchanged_refl (v : Volume) : Unchanged v v :=
  ⟨fun _ _ hd hp => ⟨hd, hp, rfl⟩, fun _ _ _ _ => rfl, fun _ _ => Iff.rfl, fun _ _ _ _ => Iff.rfl⟩

theorem diskFat_flushed (hf : Flushed v) {copy c : ℕ} (hcopy : copy < v.bpb.fats)
    (hc : InRange v.bpb c) : diskFat v copy c = 0 ↔ v.fat c = 0 := by
  have hlt : c < min (v.bpb.fatSectors*512/2) Bpb.maxFatEntries := hc.2
  have h := hf copy hcopy (c/256) (by omega) (c%256) (by omega) (by omega)
  rw [Nat.div_add_mod' c 256] at h
  rw [diskFat, h, Volume.fat, ← UInt16.toNat_inj]
  rfl

/-- The tree is as before and so is the table. -/
theorem unchanged_of_grows (hw : Working v) (hv : WellFormed v) (hww : Working w)
    (hfw : Flushed w) (hg : Grows v w) (hfat : ∀ x, w.fat x = v.fat x) : Unchanged v w where
  entries d p hd hp :=
    ⟨(hg.reach d).mpr hd, (hg.visible d p hd).mpr hp, (hg.kept d p hd hp).entry⟩
  contents x hx :=
    readEntry_kept hg.bpb hw hww hv.sound hx.reachable hx.visible
      (hg.kept x.1 x.2 hx.reachable hx.visible) hx.file
  table c _ := by rw [hfat]
  disk copy hcopy c hc := by
    rw [diskFat_flushed hv.flushed hcopy hc,
      diskFat_flushed hfw (by rwa [hg.bpb]) (by rwa [hg.bpb]), hfat]

end Unchanged

section Exits

variable {v w : Volume} {dir : ℕ} {name data : List UInt8} {now : Stamp}

/-- A directory that cannot take an entry is left as it is. -/
theorem findFreeDirEntry_full (h : v.findFreeDirEntry dir = some (none, w)) : w = v := by
  unfold Volume.findFreeDirEntry at h
  split_ifs at h
  · cases h
    rfl
  · exact (Prod.ext_iff.mp (Option.some.inj h)).2.symm
  · split at h
    · cases h
    · cases h
    · simp only [Volume.extendDir, Option.some.injEq] at h
      rcases allocCluster_cases v with ⟨ha, -⟩ | ⟨c, ha, hc, -⟩
      · rw [ha] at h
        cases h
        rfl
      · obtain ⟨k, rfl⟩ : ∃ k, c = k+1 := ⟨c-1, by have := hc.1; omega⟩
        rw [ha] at h
        cases h

theorem linkFile_full {first size : ℕ} (h : linkFile v dir name first size now = some (false, w)) :
    w = v := by
  unfold linkFile at h
  obtain ⟨⟨r, u⟩, hr, h⟩ := Option.bind_eq_some_iff.mp h
  cases r with
  | none =>
    cases h
    exact findFreeDirEntry_full hr
  | some p => cases h

/-- After the old entry is gone: the disk is full and the new clusters are given back, or
all of the data is stored and the directory is full. -/
structure GivesUp (v : Volume) (data : List UInt8) (w : Volume) : Prop where
  working : Working w
  flushed : Flushed w
  grows : Grows v w
  exit : (∀ x, w.fat x = v.fat x) ∧ NothingStored v data ∨
    ¬ NothingStored v data ∧ ∃ c, InRange v.bpb c ∧ v.fat c = 0 ∧ w.fat c ≠ 0

theorem givesUp_full (hw : Working v) (hs : Sound v) {u : Volume} {cs : List ℕ}
    (h : Stored v u data cs) (hlen : data.length ≤ 512*(cs.length*v.bpb.spc)) (hne : data ≠ []) :
    GivesUp v data u.flushFat := by
  have hwu : Working u := working_congr hw h.bpb h.mounted h.size
  have hg := stored_grows hs h
  have hpos := List.length_pos_iff.mpr hne
  have hfree : cs.length*v.bpb.spc ≤ freeClusters v*v.bpb.spc :=
    Nat.mul_le_mul_right _ (stored_length_free h)
  refine ⟨working_congr hwu rfl rfl (flushFat_size u), flushFat_flushed u hwu,
    grows_trans hg (grows_flush hg.sound), Or.inr ⟨?_, ?_⟩⟩
  · rintro (hnil | hlt)
    · exact hne hnil
    · omega
  · cases cs with
    | nil =>
      simp only [List.length_nil, Nat.zero_mul, Nat.mul_zero] at hlen
      omega
    | cons c t =>
      exact ⟨c, h.range c (by simp), h.free c (by simp), stored_fat_ne_zero h c (by simp)⟩

theorem givesUp_spec (hw : Working v) {v1 : Volume} (hw1 : Working v1)
    (hs1 : Sound v1) (hdrop : dropOld v dir name = some (some v1))
    (h : writeFileInDir v dir name data now = some (false, w)) : GivesUp v1 data w := by
  have hmount : ¬ v.mounted = false := by simp [hw.mounted]
  rw [writeFileInDir, if_neg hmount, hdrop] at h
  simp only [Option.bind_eq_bind, Option.bind_some] at h
  by_cases hnil : data = []
  · subst hnil
    have hstore : storeLoop [] storeFuel v1 0 0 0 = some (some 0, v1) := by
      rw [storeFuel, storeLoop, if_neg (by simp)]
    rw [hstore] at h
    obtain rfl := linkFile_full h
    have hg := grows_flush hs1
    exact ⟨working_congr hw1 rfl rfl (flushFat_size v1), flushFat_flushed v1 hw1, hg,
      Or.inl ⟨fun _ => rfl, Or.inl rfl⟩⟩
  · obtain ⟨r, v2, hstore, hres⟩ := storeLoop_spec hw1 hs1 storeFuel (stored_nil v1 data) (by decide)
    have hzero : filled v1.bpb data [] = 0 := by simp [filled]
    rw [hzero] at hstore
    change storeLoop data storeFuel v1 0 0 0 = some (r, v2) at hstore
    rw [hstore] at h
    rcases hres with ⟨rfl, hw2, hf2, hg2, hfat, hfull⟩ | ⟨cs, rfl, hst, hlen⟩
    · cases h
      exact ⟨hw2, hf2, hg2, Or.inl ⟨hfat, Or.inr hfull⟩⟩
    · obtain rfl := linkFile_full h
      exact givesUp_full hw1 hs1 hst hlen hnil

end Exits

section Failed

variable {v : Volume} {dir : ℕ} {name : List UInt8} (hw : Working v) (hv : WellFormed v)
  (hd : Reachable v dir) (hn : NotDots name)
include hw hv hd hn

/-- What a failed call leaves: the volume as it was, or one whose old entry is gone. -/
theorem failed_cases {data : List UInt8} {now : Stamp} {w : Volume}
    (h : writeFileInDir v dir name data now = some (false, w)) :
    (Refused v dir name ∧ w = v) ∨ (Absent v dir name ∧ GivesUp v data w) ∨
    ∃ p, Named v dir name p ∧ (v.entryAt p).attributes &&& attrProtectModify = 0 ∧
      ¬ VisibleAt w dir p := by
  rcases lookup_cases hw hv.sound hd hn with ⟨hr, habs⟩ | ⟨p, hr, hp, hname, hload⟩
  · have hdrop : dropOld v dir name = some (some v) := by simp [dropOld, hr]
    exact Or.inr (Or.inl ⟨fun p hp => habs p hp.1 hp.2,
      givesUp_spec hw hw hv.sound hdrop h⟩)
  · by_cases hprot : (v.entryAt p).attributes &&& attrProtectModify ≠ 0
    · rw [write_refused hw hv.sound hd hn ⟨hp, hname⟩ hprot] at h
      cases h
      exact Or.inl ⟨⟨p, ⟨hp, hname⟩, hprot⟩, rfl⟩
    · refine Or.inr (Or.inr ⟨p, ⟨hp, hname⟩, not_not.mp hprot, fun hpw => ?_⟩)
      rcases dropOld_spec hw hv.sound hd hn with hdrop |
        ⟨v1, gone, hdrop, hw1, hs1, -, hd1, -, -, -, hvis⟩
      · simp only [dropOld, hr, Option.bind_eq_bind, Option.bind_some, hload, if_neg hprot] at hdrop
        split_ifs at hdrop
        · obtain ⟨u, -, hu⟩ := Option.bind_eq_some_iff.mp hdrop
          cases hu
        · cases hdrop
      · have hg := (givesUp_spec hw hw1 hs1 hdrop h).grows
        exact (hvis p ((hg.visible dir p hd1).mp hpw)).2.2 hname

/-- The old entry is lost, unless the call was refused. -/
theorem absent_of_unchanged {data : List UInt8} {now : Stamp} {w : Volume}
    (h : writeFileInDir v dir name data now = some (false, w)) (hu : Unchanged v w) :
    Refused v dir name ∨ Absent v dir name ∧ GivesUp v data w := by
  rcases failed_cases hw hv hd hn h with ⟨href, -⟩ | hgive | ⟨p, hp, -, hlost⟩
  · exact Or.inl href
  · exact Or.inr hgive
  · exact absurd (hu.entries dir p hd hp.1).2.1 hlost

end Failed

/-- A failed call changes nothing exactly if it was refused, or the name was not there and
nothing stayed stored. -/
theorem failed_write_unchanged {v : Volume} {dir : ℕ} {name : List UInt8} (hw : Working v)
    (hv : WellFormed v) (hd : Reachable v dir) (hn : ValidName name) (data : List UInt8)
    (now : Stamp) :
    ∃ ok w, writeFileInDir v dir name data now = some (ok, w) ∧ (ok = false → (Unchanged v w ↔
      Refused v dir name ∨ Absent v dir name ∧ NothingStored v data)) := by
  have hdots := validName_notDots hn
  obtain ⟨ok, w, hrun, -⟩ := writeFileInDir_spec hw hv hd (validName_fits hn v dir) data now
  refine ⟨ok, w, hrun, ?_⟩
  rintro rfl
  constructor
  · intro hu
    refine (absent_of_unchanged hw hv hd hdots hrun hu).imp_right fun ⟨habs, hgive⟩ => ⟨habs, ?_⟩
    rcases hgive.exit with ⟨-, hnone⟩ | ⟨-, c, hc, h0, hne⟩
    · exact hnone
    · exact absurd ((hu.table c hc).mpr h0) hne
  · intro hcond
    rcases failed_cases hw hv hd hdots hrun with ⟨-, rfl⟩ | ⟨habs, hgive⟩ | ⟨p, hp, hprot, -⟩
    · exact unchanged_refl w
    · rcases hgive.exit with ⟨hfat, -⟩ | ⟨hstored, -⟩
      · exact unchanged_of_grows hw hv hgive.working hgive.flushed hgive.grows hfat
      · rcases hcond with ⟨p, hp, -⟩ | ⟨-, hnone⟩
        · exact absurd hp (habs p)
        · exact absurd hnone hstored
    · rcases hcond with ⟨q, hq, hqp⟩ | ⟨habs, -⟩
      · rw [hv.sound.names dir q p hd hq.1 hp.1 (hq.2.trans hp.2.symm)] at hqp
        exact absurd hprot hqp
      · exact absurd hp (habs p)

def zeros (n : ℕ) : List UInt8 := List.replicate n 0

theorem zeros_length (n : ℕ) : (zeros n).length = n := List.length_replicate

/-- An attempt to write a new file that is larger than the disk. -/
theorem failed_write_unchanged_blank : ∃ ok w,
    writeFileInDir blank 0 [0x41] (zeros 130049) ⟨0, 0⟩ = some (ok, w) ∧ (ok = false → (Unchanged blank w ↔
      Refused blank 0 [0x41] ∨ Absent blank 0 [0x41] ∧ NothingStored blank (zeros 130049))) :=
  failed_write_unchanged blank_working blank_wellFormed .refl validName_A (zeros 130049) ⟨0, 0⟩

/-- `blank` has 254 clusters of one sector: this does not fit. -/
theorem zeros_not_contained {w : Volume} {e : DirEntry} (hb : w.bpb = blank.bpb) :
    ¬ Contains w e (zeros 130049) := by
  rintro ⟨-, cs, hchain, hlen, -⟩
  have hspc : blank.bpb.spc = 1 := rfl
  have htotal : blank.bpb.total = 256 := by decide +kernel
  rw [hb, hspc, zeros_length] at hlen
  cases cs with
  | nil => simp at hlen
  | cons c t =>
    have h := hchain (List.cons_ne_nil c t)
    have hcount := range_length w.bpb (c::t) (fatChain_nodup h) (fatChain_range h)
    rw [hb, htotal] at hcount
    omega

/-- A file of three bytes is written over with more than the disk holds: it is lost. -/
theorem full_disk_loses_file : ∃ v w p,
    writeFileInDir blank 0 [0x41] [1, 2, 3] ⟨0, 0⟩ = some (true, v) ∧ Working v ∧ WellFormed v ∧
    writeFileInDir v 0 [0x41] (zeros 130049) ⟨0, 0⟩ = some (false, w) ∧
    Named v 0 [0x41] p ∧ Contains v (v.entryAt p) [1, 2, 3] ∧ ¬ VisibleAt w 0 p ∧
    ¬ Unchanged v w := by
  have hfirst : (writeFileInDir blank 0 [0x41] [1, 2, 3] ⟨0, 0⟩).map Prod.fst = some true := by
    decide +kernel
  obtain ⟨ok, v, hrun, hw, hv, hb, -, hthere⟩ := writeFileInDir_spec blank_working blank_wellFormed
    .refl (validName_fits validName_A blank 0) [1, 2, 3] ⟨0, 0⟩
  rw [hrun, Option.map_some, Option.some.injEq] at hfirst
  obtain rfl : ok = true := hfirst
  obtain ⟨p, e, first, hp, hent, hcont⟩ := hthere rfl
  have hname : Named v 0 [0x41] p :=
    ⟨hp, by rw [hent, freshEntry_name, entryName_format83 _ validName_A]⟩
  have hplain : (v.entryAt p).attributes &&& attrProtectModify = 0 := by
    rw [hent]
    exact (by decide : attrArchive &&& attrProtectModify = 0)
  obtain ⟨ok, w, hrun', -, -, hbw, -, hstored⟩ := writeFileInDir_spec hw hv .refl
    (validName_fits validName_A v 0) (zeros 130049) ⟨0, 0⟩
  cases ok with
  | true =>
    obtain ⟨q, e', first', -, -, hc⟩ := hstored rfl
    exact absurd hc (zeros_not_contained (hbw.trans hb))
  | false =>
    have hlost : ¬ VisibleAt w 0 p := by
      rcases failed_cases hw hv .refl (validName_notDots validName_A) hrun' with
        ⟨⟨q, hq, hprot⟩, -⟩ | ⟨habs, -⟩ | ⟨q, hq, -, hgone⟩
      · rw [hv.sound.names 0 q p .refl hq.1 hp (hq.2.trans hname.2.symm)] at hprot
        exact absurd hplain hprot
      · exact absurd hname (habs p)
      · rwa [hv.sound.names 0 q p .refl hq.1 hp (hq.2.trans hname.2.symm)] at hgone
    exact ⟨v, w, p, hrun, hw, hv, hrun', hname, hcont, hlost,
      fun hu => hlost (hu.entries 0 p .refl hp).2.1⟩

end Vlsmc.FailedWrites
