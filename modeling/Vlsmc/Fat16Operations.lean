import Vlsmc.Fat16Effects

/-!
# Writing and deleting files

For `write_file_in_dir` and `fat16_unlink` on a reachable directory: the call
returns, the volume stays well formed whether it succeeds or fails, and every
entry that is not below the one it replaces or removes is spared.
-/

set_option autoImplicit false

namespace Vlsmc.Fat16Operations
open Vlsmc.Fat16Layout Vlsmc.Fat16Names Vlsmc.Fat16Volume Vlsmc.Fat16Files
open Vlsmc.Fat16Geometry Vlsmc.Fat16Chains Vlsmc.Fat16Directory Vlsmc.Fat16Soundness
open Vlsmc.Fat16Updates Vlsmc.Fat16Growth Vlsmc.Fat16Store Vlsmc.Fat16Effects

structure WellFormed (v : Volume) : Prop where
  sound : Sound v
  flushed : Flushed v

/-- A name that a lookup never resolves to `.` or `..`. -/
def NotDots (name : List UInt8) : Prop := name ≠ [dot] ∧ name ≠ [dot, dot]

/-- A name under which the directory can take an entry: its 8.3 form is a
visible name, and no entry with another name has the same 8.3 form. -/
structure Fits (v : Volume) (d : ℕ) (name : List UInt8) : Prop where
  notDots : NotDots name
  visible : ∀ e : DirEntry, e.attributes &&& attrHiddenMask = 0 → Visible (format83Name name e)
  absent : ∀ e p, VisibleAt v d p → entryName (v.entryAt p) ≠ name.map upper →
    entryName (v.entryAt p) ≠ entryName (format83Name name e)

theorem validName_notDots {name : List UInt8} (hn : ValidName name) : NotDots name := by
  obtain ⟨base, ext, rfl, h1, -, -, hb, -, -⟩ := hn.parts
  cases base with
  | nil => simp at h1
  | cons c base =>
    have hc := (hb c (by simp)).2.2.1
    constructor <;> intro h <;> exact hc (List.cons.inj h).1

theorem validName_fits {name : List UInt8} (hn : ValidName name) (v : Volume) (d : ℕ) :
    Fits v d name :=
  ⟨validName_notDots hn, format83_visible name hn, fun e p _ h => by
    rwa [entryName_format83 name hn]⟩

theorem upper_dot {c : UInt8} (h : upper c = dot) : c = dot := by
  by_contra hc
  have hu := congrArg UInt8.toNat h
  have hd : c.toNat ≠ dot.toNat := fun he => hc (UInt8.toNat_inj.mp he)
  rw [upper_toNat] at hu
  have : dot.toNat = 46 := rfl
  split_ifs at hu <;> omega

theorem map_upper_dots {l m : List UInt8} (hm : ∀ c ∈ m, c = dot)
    (h : m.map upper = l.map upper) : l = m := by
  induction m generalizing l with
  | nil => simpa using h.symm
  | cons c m ih =>
    cases l with
    | nil => simp at h
    | cons a l =>
      simp only [List.map_cons, List.cons.injEq] at h
      have hc : c = dot := hm c (by simp)
      have ha : a = dot := upper_dot (by rw [← h.1, hc]; decide)
      rw [ih (fun x hx => hm x (by simp [hx])) h.2, ha, hc]

theorem notDots_visible {name : List UInt8} {e : DirEntry} (hn : NotDots name) (hs : Shown e)
    (he : entryName e = name.map upper) : Visible e := by
  refine ⟨hs.used, hs.kept, hs.shown, fun hdot => ?_⟩
  rcases hdot with hd | hd
  · exact hn.1 (map_upper_dots (by simp) (hd ▸ he))
  · exact hn.2 (map_upper_dots (by simp) (hd ▸ he))

section Lookup

variable {v : Volume} {d : ℕ} {name : List UInt8} (hw : Working v) (hs : Sound v)
  (hd : Reachable v d) (hn : NotDots name)
include hw hs hd hn

/-- A lookup in a reachable directory decides whether the name is there. -/
theorem lookup_cases :
    (v.findDirEntry d name = some none ∧
      ∀ p, VisibleAt v d p → entryName (v.entryAt p) ≠ name.map upper) ∨
    ∃ p, v.findDirEntry d name = some (some p) ∧ VisibleAt v d p ∧
      entryName (v.entryAt p) = name.map upper ∧ v.loadEntry p = v.entryAt p := by
  obtain ⟨L, hL⟩ := reachable_lbas hs hd
  obtain ⟨r, hr⟩ := findDirEntry_returns hw hL name
  cases r with
  | none =>
    refine Or.inl ⟨hr, ?_⟩
    rintro p ⟨⟨M, hM, hp⟩, hv⟩
    rw [dirLbas_unique hM hL] at hp
    exact findDirEntry_absent hw hL (hs.ended d L hd hL) hr p hp (visible_shown hv)
  | some p =>
    obtain ⟨hp, hsh, hname⟩ := findDirEntry_found hw hL hr
    have hin : InDir v d p := ⟨L, hL, hp⟩
    exact Or.inr ⟨p, hr, ⟨hin, notDots_visible hn hsh hname⟩, hname, loadEntry_eq hw hin⟩

omit hw hn in
/-- The chain of a visible entry, empty when it has no cluster. -/
theorem entry_chain {p : Slot} (hp : VisibleAt v d p) :
    ∃ l, (2 ≤ (v.entryAt p).cluster → FatChain v (v.entryAt p).cluster l) ∧
      ((v.entryAt p).cluster < 2 → l = []) := by
  by_cases h2 : 2 ≤ (v.entryAt p).cluster
  · obtain ⟨t, ht⟩ := hs.chains d p hd hp h2
    exact ⟨_, fun _ => ht, fun h => by omega⟩
  · exact ⟨[], fun h => absurd h h2, fun _ => rfl⟩

end Lookup

section Delete

variable {v : Volume} {d : ℕ} {name : List UInt8} (hw : Working v) (hs : Sound v)
  (hd : Reachable v d) (hn : NotDots name)
include hw hs hd hn

/-- The removal of an old entry before it is written again. -/
theorem dropOld_spec : dropOld v d name = some none ∨
    ∃ w gone, dropOld v d name = some (some w) ∧ Working w ∧ Sound w ∧ w.bpb = v.bpb ∧
      Reachable w d ∧ Spares v w gone ∧ Cuts v w gone ∧
      (∀ p, p ∈ gone ↔ VisibleAt v d p ∧ entryName (v.entryAt p) = name.map upper) ∧
      ∀ p, VisibleAt w d p → VisibleAt v d p ∧ w.entryAt p = v.entryAt p ∧
        entryName (v.entryAt p) ≠ name.map upper := by
  rcases lookup_cases hw hs hd hn with ⟨hr, habs⟩ | ⟨p, hr, hp, hname, hload⟩
  · refine Or.inr ⟨v, none, by simp [dropOld, hr], hw, hs, rfl, hd,
      grows_spares (grows_refl hs), grows_cuts (grows_refl hs), fun p => ?_,
      fun p hp => ⟨hp, rfl, habs p hp⟩⟩
    exact iff_of_false (by simp) fun h => habs p h.1 h.2
  · by_cases hprot : (v.entryAt p).attributes &&& attrProtectModify ≠ 0
    · exact Or.inl (by simp [dropOld, hr, hload, hprot])
    · right
      obtain ⟨l, hl, hl0⟩ := entry_chain hs hd hp
      obtain ⟨v1, hv1, hb1, hd1, hm1, hf1⟩ : ∃ v1,
          (if 2 ≤ (v.entryAt p).cluster then v.freeChain (v.entryAt p).cluster else some v) =
            some v1 ∧ v1.bpb = v.bpb ∧ v1.disk = v.disk ∧ v1.mounted = v.mounted ∧
            ∀ x, v1.fat x = if x ∈ l then 0 else v.fat x := by
        split_ifs with h2
        · exact freeChain_spec v _ l (hl h2)
        · exact ⟨v, rfl, rfl, rfl, rfl, fun x => by simp [hl0 (by omega)]⟩
      have hdisk : (v1.updateEntry p DirEntry.markDeleted).disk =
          (v.updateEntry p DirEntry.markDeleted).disk := by
        simp only [Volume.updateEntry, hd1]
      obtain ⟨hsw, hsp, hcuts, hvis⟩ := drop_spec (w := v1.updateEntry p DirEntry.markDeleted)
        hs hw hd hp hl hl0 hb1 hf1 hdisk
      obtain ⟨hdw, hkeep⟩ := hsp d hd (own_clear hs hd hp)
      refine ⟨v1.updateEntry p DirEntry.markDeleted, some p, ?_, working_congr hw hb1 hm1 ?_, hsw,
        hb1, hdw, hsp, hcuts, fun q => ?_, fun q hq => ?_⟩
      · simp only [dropOld, hr, hload, if_neg hprot, Option.bind_eq_bind, Option.bind_some]
        split_ifs at hv1 ⊢ with h2
        · rw [hv1]
          rfl
        · rw [Option.some.inj hv1]
          rfl
      · rw [updateEntry_size, hd1]
      · constructor
        · rintro ⟨rfl⟩
          exact ⟨hp, hname⟩
        · rintro ⟨hq, hqn⟩
          exact congrArg some (hs.names d p q hd hp hq (hname.trans hqn.symm))
      · obtain ⟨hqv, hqp⟩ := (hvis d q hdw).mp hq
        refine ⟨hqv, (hkeep q hqv (by simpa using Ne.symm hqp)).2.entry, fun hqn => hqp ?_⟩
        exact hs.names d q p hd hqv hp (hqn.trans hname.symm)

theorem fat16Unlink_spec (hf : Flushed v) :
    ∃ ok w, fat16Unlink v d name = some (ok, w) ∧ Working w ∧ WellFormed w ∧ w.bpb = v.bpb ∧
      ∃ gone, Spares v w gone ∧
        (∀ p ∈ gone, VisibleAt v d p ∧ entryName (v.entryAt p) = name.map upper) ∧
        Cuts v w gone ∧ (ok = true → gone.isSome) := by
  have hmount : ¬ v.mounted = false := by simp [hw.mounted]
  have hsame : ∃ gone, Spares v v gone ∧
      (∀ p ∈ gone, VisibleAt v d p ∧ entryName (v.entryAt p) = name.map upper) ∧
      Cuts v v gone ∧ (false = true → gone.isSome) :=
    ⟨none, grows_spares (grows_refl hs), by simp, grows_cuts (grows_refl hs), by simp⟩
  rcases lookup_cases hw hs hd hn with ⟨hr, -⟩ | ⟨p, hr, hp, hname, hload⟩
  · exact ⟨false, v, by simp [fat16Unlink, hmount, hr], hw, ⟨hs, hf⟩, rfl, hsame⟩
  · by_cases hprot : (v.entryAt p).attributes &&& attrProtectDelete ≠ 0
    · exact ⟨false, v, by simp [fat16Unlink, hmount, hr, hload, hprot], hw, ⟨hs, hf⟩, rfl, hsame⟩
    · obtain ⟨l, hl, hl0⟩ := entry_chain hs hd hp
      have hread := inDir_readable hw hp.1
      have hgone : ∀ q ∈ some p, VisibleAt v d q ∧ entryName (v.entryAt q) = name.map upper := by
        rintro q ⟨rfl⟩
        exact ⟨hp, hname⟩
      have hnotfat : ¬ fatRegion v.bpb p.1 := by
        obtain ⟨L, hL, hpL⟩ := hp.1
        exact dirLbas_not_fat hL (mem_slotsOf.mp hpL).1
      by_cases h2 : 2 ≤ (v.entryAt p).cluster
      · obtain ⟨w, hfree, hb, hdisk, hm, hfat⟩ :=
          freeChain_spec (v.updateEntry p DirEntry.markDeleted) _ l (hl h2)
        obtain ⟨hsw, hsp, hcuts, -⟩ := drop_spec hs hw hd hp hl hl0 hb hfat hdisk
        have hww : Working w := working_congr hw hb hm (by rw [hdisk, updateEntry_size])
        have hg := grows_flush hsw
        refine ⟨true, w.flushFat, ?_, working_congr hww rfl rfl (flushFat_size w),
          ⟨hg.sound, flushFat_flushed w hww⟩, hb, some p, spares_trans hb hsp (grows_spares hg),
          hgone, cuts_trans hcuts (grows_cuts hg), fun _ => rfl⟩
        simp only [fat16Unlink, if_neg hmount, hr, hload, if_neg hprot, Option.bind_eq_bind,
          Option.bind_some, if_pos h2, hfree]
        rfl
      · have hnil := hl0 (by omega)
        obtain ⟨hsw, hsp, hcuts, -⟩ := drop_spec (w := v.updateEntry p DirEntry.markDeleted)
          hs hw hd hp hl hl0 rfl (fun x => by simp [hnil]) rfl
        refine ⟨true, v.updateEntry p DirEntry.markDeleted, ?_,
          working_congr hw rfl rfl (updateEntry_size v p _), ⟨hsw, ?_⟩, rfl, some p, hsp, hgone,
          hcuts, fun _ => rfl⟩
        · simp only [fat16Unlink, if_neg hmount, hr, hload, if_neg hprot, Option.bind_eq_bind,
            Option.bind_some, if_neg h2]
          rfl
        · refine flushed_congr v hf rfl rfl fun lba hlba => ?_
          exact updateEntry_other v p _ lba fun h => hnotfat (h ▸ hlba)

end Delete

/-- The entry describes a file with the given contents. -/
structure Contains (v : Volume) (e : DirEntry) (data : List UInt8) : Prop where
  size : e.fileSize.toNat = data.length
  stored : ∃ cs, (cs ≠ [] → FatChain v e.cluster cs) ∧
    data.length ≤ 512*(cs.length*v.bpb.spc) ∧
    ∀ k lba, (chainLbas v.bpb cs)[k]? = some lba → 512*k < data.length →
      v.disk.data lba = fileBlock data k

section Create

theorem freshEntry_name (attributes : UInt8) (name : List UInt8) (first size : ℕ) (now : Stamp)
    (e : DirEntry) :
    entryName (freshEntry attributes name first size now e) = entryName (format83Name name e) := rfl

theorem freshEntry_visible {v : Volume} {d : ℕ} {name : List UInt8} (hn : Fits v d name)
    {attributes : UInt8} (ha : attributes &&& attrHiddenMask = 0) (first size : ℕ) (now : Stamp)
    (e : DirEntry) : Visible (freshEntry attributes name first size now e) := by
  have h := hn.visible { e with attributes := attributes } ha
  exact ⟨h.used, h.kept, h.shown, h.named⟩

theorem freshEntry_cluster (attributes : UInt8) (name : List UInt8) {first : ℕ} (size : ℕ)
    (now : Stamp) (e : DirEntry) (h : first < 65536) :
    (freshEntry attributes name first size now e).cluster = first := by
  simp only [freshEntry, DirEntry.cluster, UInt16.toNat_ofNat']
  omega

/-- An update of a directory slot does not touch the table copies. -/
theorem updateEntry_flushed {v : Volume} {d : ℕ} {q : Slot} (hf : Flushed v) (hq : InDir v d q)
    (f : DirEntry → DirEntry) : Flushed (v.updateEntry q f) := by
  obtain ⟨L, hL, hqL⟩ := hq
  refine flushed_congr v hf rfl rfl fun lba hlba => updateEntry_other v q f lba fun h => ?_
  exact dirLbas_not_fat hL (mem_slotsOf.mp hqL).1 (h ▸ hlba)

variable {v : Volume} {d : ℕ} {name : List UInt8} (hw : Working v) (hv : WellFormed v)
  (hd : Reachable v d) (hn : Fits v d name)
include hw hv hd hn

/-- The end of `write_file_in_dir`: the stored clusters get their entry. -/
theorem linkFile_spec (first size : ℕ) (now : Stamp) (l : List ℕ)
    (habs : ∀ p, VisibleAt v d p → entryName (v.entryAt p) ≠ name.map upper)
    (hfirst : first < 65536) (hl : 2 ≤ first → Loose v first l) (hl0 : 2 ≤ first → l ≠ []) :
    ∃ ok w, linkFile v d name first size now = some (ok, w) ∧ Working w ∧ WellFormed w ∧
      w.bpb = v.bpb ∧ Spares v w none ∧ Cuts v w none ∧
      (ok = true → ∃ q e, VisibleAt w d q ∧
        w.entryAt q = freshEntry attrArchive name first size now e ∧
        (2 ≤ first → FatChain w first l ∧ SameData v w l)) := by
  obtain ⟨r, u, hr, hwu, hfu, hg, hslot⟩ := findFreeDirEntry_spec hw hv.sound hv.flushed hd
  cases r with
  | none =>
    exact ⟨false, u, by simp [linkFile, hr], hwu, ⟨hg.sound, hfu⟩, hg.bpb, grows_spares hg,
      grows_cuts hg, by simp⟩
  | some q =>
    have hq := hslot q rfl
    have hin := freeSlot_inDir hq
    have hread := inDir_readable hwu hin
    generalize he : freshEntry attrArchive name first size now (u.entryAt q) = e
    have hcl : e.cluster = first := he ▸ freshEntry_cluster _ _ _ _ _ hfirst
    have hfile : ¬ e.isDirectory := by
      rw [← he]
      exact (by decide : ¬ (attrArchive &&& attrDirectory ≠ 0))
    have hlu : 2 ≤ first → Loose u first l ∧ SameData v u l := fun h2 => hg.loose first l (hl h2)
    obtain ⟨hsw, hsp, hvis, hent, hcuts⟩ := insert_spec
      (w := u.updateEntry q (freshEntry attrArchive name first size now)) (e := e) hg.sound hq
      (he ▸ freshEntry_visible hn (by decide) _ _ _ _)
      (fun p hp => by
        have hpv := (hg.visible d p hd).mp hp
        rw [(hg.kept d p hd hpv).entry, ← he, freshEntry_name]
        exact hn.absent _ p hpv (habs p hpv))
      rfl (fun _ => rfl) (fun lba h => updateEntry_other u q _ lba h)
      (fun p => by rw [updateEntry_entryAt u q _ hread, he])
      (fun h2 => by
        rw [hcl] at h2 ⊢
        obtain ⟨t, ht⟩ := fatChain_head (hlu h2).1.1 (by
          have hne := hl0 h2
          cases l with
          | nil => exact absurd rfl hne
          | cons x l =>
            have h1 := (hlu h2).1.1.1
            have h3 := (hlu h2).1.1.2.1.2
            have h4 := total_le u.bpb
            omega)
        exact ⟨t, ht ▸ (hlu h2).1⟩)
      (fun hdir => absurd hdir hfile)
    refine ⟨true, u.updateEntry q (freshEntry attrArchive name first size now), ?_,
      working_congr hwu rfl rfl (updateEntry_size u q _), ⟨hsw, updateEntry_flushed hfu hin _⟩,
      hg.bpb, spares_trans hg.bpb (grows_spares hg) hsp, cuts_trans (grows_cuts hg) (hcuts hfile),
      fun _ => ⟨q, u.entryAt q, hvis, ?_, ?_⟩⟩
    · simp [linkFile, hr]
    · rw [hent, he]
    · intro h2
      obtain ⟨hloose, hsame⟩ := hlu h2
      refine ⟨(rewrite_chain rfl fun _ => rfl).mpr hloose.1, sameData_trans hg.bpb hsame ?_⟩
      refine fun lba hlba => updateEntry_other u q _ lba fun h => ?_
      exact dir_sector_loose hq.reachable hin hloose (h ▸ hlba)

/-- `write_file_in_dir` in a reachable directory. -/
theorem writeFileInDir_spec (data : List UInt8) (now : Stamp) :
    ∃ ok w, writeFileInDir v d name data now = some (ok, w) ∧ Working w ∧ WellFormed w ∧
      w.bpb = v.bpb ∧
      (∃ gone, Spares v w gone ∧
        (∀ p ∈ gone, VisibleAt v d p ∧ entryName (v.entryAt p) = name.map upper) ∧
        Cuts v w gone ∧ (ok = true → ∀ p, VisibleAt v d p →
          entryName (v.entryAt p) = name.map upper → p ∈ gone)) ∧
      (ok = true → ∃ q e first, VisibleAt w d q ∧
        w.entryAt q = freshEntry attrArchive name first data.length now e ∧
        Contains w (w.entryAt q) data) := by
  have hmount : ¬ v.mounted = false := by simp [hw.mounted]
  rcases dropOld_spec hw hv.sound hd hn.notDots with hdrop |
    ⟨v1, gone, hdrop, hw1, hs1, hb1, hd1, hsp1, hcuts1, hgone, hvis1⟩
  · exact ⟨false, v, by simp [writeFileInDir, hmount, hdrop], hw, hv, rfl,
      ⟨none, grows_spares (grows_refl hv.sound), by simp, grows_cuts (grows_refl hv.sound),
        by simp⟩, by simp⟩
  · obtain ⟨r, v2, hstore, hres⟩ := storeLoop_spec hw1 hs1 storeFuel
      (stored_nil v1 data) (by decide)
    have hzero : filled v1.bpb data [] = 0 := by simp [filled]
    rw [hzero] at hstore
    change storeLoop data storeFuel v1 0 0 0 = some (r, v2) at hstore
    rcases hres with ⟨rfl, hw2, hf2, hg2, -⟩ | ⟨cs, rfl, hst, hlen⟩
    · exact ⟨false, v2, by simp [writeFileInDir, hmount, hdrop, hstore], hw2, ⟨hg2.sound, hf2⟩,
        hg2.bpb.trans hb1, ⟨gone, spares_trans hb1 hsp1 (grows_spares hg2),
          fun p hp => (hgone p).mp hp, cuts_trans hcuts1 (grows_cuts hg2), by simp⟩, by simp⟩
    · have hg2 := stored_grows hs1 hst
      have hw2 : Working v2 := working_congr hw1 hst.bpb hst.mounted hst.size
      have hg3 := grows_flush hg2.sound
      have hg := grows_trans hg2 hg3
      have hw3 : Working v2.flushFat := working_congr hw2 rfl rfl (flushFat_size v2)
      have hd3 : Reachable v2.flushFat d := (hg.reach d).mpr hd1
      have hvis3 : ∀ p, VisibleAt v2.flushFat d p → VisibleAt v d p ∧
          v2.flushFat.entryAt p = v.entryAt p ∧ entryName (v.entryAt p) ≠ name.map upper := by
        intro p hp
        have hp1 := (hg.visible d p hd1).mp hp
        obtain ⟨hpv, he, hne⟩ := hvis1 p hp1
        exact ⟨hpv, (hg.kept d p hd1 hp1).entry.trans he, hne⟩
      have hn3 : Fits v2.flushFat d name := by
        refine ⟨hn.notDots, hn.visible, fun e p hp hne => ?_⟩
        obtain ⟨hpv, he, -⟩ := hvis3 p hp
        rw [he] at hne ⊢
        exact hn.absent e p hpv hne
      have hloose : ∀ c t, cs = c::t → Loose v2.flushFat c cs ∧ SameData v2 v2.flushFat cs :=
        fun c t hcs => hg3.loose c cs (stored_loose hs1 hst hcs)
      have hcases : (cs = [] ∧ cs.headD 0 = 0) ∨ ∃ c t, cs = c::t ∧ cs.headD 0 = c ∧
          InRange v1.bpb c := by
        cases cs with
        | nil => exact Or.inl ⟨rfl, rfl⟩
        | cons c t => exact Or.inr ⟨c, t, rfl, rfl, hst.range c (by simp)⟩
      have htot := total_le v1.bpb
      obtain ⟨ok, w, hlink, hww, hwf, hbw, hspw, hcutsw, hok⟩ := linkFile_spec hw3
        ⟨hg.sound, flushFat_flushed v2 hw2⟩ hd3 hn3 (cs.headD 0) data.length now cs (fun p hp => by
          obtain ⟨-, he, hne⟩ := hvis3 p hp
          rwa [he])
        (by
          rcases hcases with ⟨-, h⟩ | ⟨c, t, -, h, hc⟩
          · omega
          · have := hc.2
            omega)
        (by
          intro h2
          rcases hcases with ⟨-, h⟩ | ⟨c, t, hcs, h, -⟩
          · omega
          · rw [h]
            exact (hloose c t hcs).1)
        (by
          intro h2
          rcases hcases with ⟨-, h⟩ | ⟨c, t, hcs, -, -⟩
          · omega
          · simp [hcs])
      have hbpb : w.bpb = v1.bpb := hbw.trans hst.bpb
      refine ⟨ok, w, ?_, hww, hwf, hbpb.trans hb1, ⟨gone, spares_trans hb1 hsp1
        (spares_trans hg.bpb (grows_spares hg) hspw), fun p hp => (hgone p).mp hp,
        cuts_trans hcuts1 (cuts_trans (grows_cuts hg) hcutsw),
        fun _ p hp hpn => (hgone p).mpr ⟨hp, hpn⟩⟩, fun htrue => ?_⟩
      · simp only [writeFileInDir, if_neg hmount, hdrop, hstore, Option.bind_eq_bind,
          Option.bind_some, hlink]
      · obtain ⟨q, e, hq, hent, hchain⟩ := hok htrue
        refine ⟨q, e, cs.headD 0, hq, hent, ?_⟩
        have hbound : cs.length*v1.bpb.spc ≤ 32766*255 :=
          Nat.mul_le_mul (stored_length hst) (by have := spc_lt v1.bpb; omega)
        rcases hcases with ⟨rfl, h⟩ | ⟨c, t, hcs, h, hc⟩
        · refine ⟨?_, [], by simp, by simpa using hlen, by simp [chainLbas]⟩
          have hnil : data.length = 0 := by simpa using hlen
          rw [hent, hnil]
          rfl
        · rw [h] at hchain hent
          have h2 := hc.1
          have hcr := hc.2
          obtain ⟨hfat, hsame⟩ := hchain h2
          have hcl : (w.entryAt q).cluster = c := by
            rw [hent]
            exact freshEntry_cluster _ _ _ _ _ (by omega)
          refine ⟨?_, cs, fun _ => hcl ▸ hfat, by rw [hbpb]; exact hlen, fun k lba hk hk' => ?_⟩
          · rw [hent]
            simp only [freshEntry, UInt32.toNat_ofNat']
            omega
          · rw [hbpb] at hk
            have hmem := List.mem_of_getElem? hk
            rw [hsame lba (by rw [flushFat_bpb, hst.bpb]; exact hmem),
              (hloose c t hcs).2 lba (by rw [hst.bpb]; exact hmem)]
            exact hst.content k lba hk hk'

end Create

end Vlsmc.Fat16Operations
