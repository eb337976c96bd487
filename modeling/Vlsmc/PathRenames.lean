import Vlsmc.PathWrites

/-!
# What renaming leaves alone

`fat16_rename` fills the first free slot of the new directory and marks the old slot. What lay
below a moved directory is found under its new name when the 8.3 form still is that name and the
directory was not moved below itself, which the driver does not check.
-/

set_option autoImplicit false

namespace Vlsmc.PathRenames
open Vlsmc.Fat16Layout Vlsmc.Fat16Names Vlsmc.Fat16Volume Vlsmc.Fat16Files
open Vlsmc.Fat16Geometry Vlsmc.Fat16Chains Vlsmc.Fat16Directory Vlsmc.Fat16Soundness
open Vlsmc.Fat16Updates Vlsmc.Fat16Growth Vlsmc.Fat16Store Vlsmc.Fat16Effects
open Vlsmc.Fat16Operations Vlsmc.Fat16RoundTrip Vlsmc.Vfs Vlsmc.StorableNames
open Vlsmc.PathLookups Vlsmc.DirectoryEdits Vlsmc.PathOperations Vlsmc.PathWrites
open Vlsmc.PathSplitters (granted)
open Relation

section Rename

variable {v w : Volume} {od nd : ℕ} {oldName newName : Name} (hw : Working v) (hv : WellFormed v)
  (hod : Reachable v od) (hnd : Reachable v nd) (h0 : 0 ∉ newName)
include hw

omit hw in
/-- The search for a free slot frees no cluster. -/
theorem search_frees_none {u : Volume} {d : ℕ} {L : List ℕ} {q : Slot} (hw : Working v)
    (hL : DirLbas v d L) (h : v.findFreeDirEntry d = some (some q, u)) :
    ∀ c, v.fat c ≠ 0 → u.fat c ≠ 0 := by
  rcases CreatedEntries.findFree_cases hw hL h with ⟨rfl, -⟩ | ⟨t, n, -, -, -, -, -, hx⟩
  · exact fun _ hc => hc
  · intro c hc
    have hn := hx.range.1
    rw [hx.table]
    split_ifs
    · omega
    · decide
    · exact hc

include hv hod hnd h0

/-- A successful rename puts the entry under its new name into the first free slot. -/
theorem rename_places (h : fat16Rename v od oldName nd newName = some (true, w)) :
    ∃ p u q, Finds v od oldName p ∧ v.findDirEntry nd newName = some none ∧ Back v u nd ∧
      Places v u w nd (some p) q (format83Name newName (v.entryAt p)) ∧
      ∀ c, v.fat c ≠ 0 → w.fat c ≠ 0 := by
  rw [fat16Rename, if_neg (by simp [hw.mounted])] at h
  obtain ⟨r, hr, h⟩ := Option.bind_eq_some_iff.mp h
  cases r with
  | none => simp at h
  | some p =>
    obtain ⟨r', hr', h⟩ := Option.bind_eq_some_iff.mp h
    cases r' with
    | some x => simp at h
    | none =>
      obtain ⟨⟨r'', u⟩, hfree, h⟩ := Option.bind_eq_some_iff.mp h
      cases r'' with
      | none => simp at h
      | some q =>
        obtain ⟨-, hwu⟩ := Prod.mk.inj (Option.some.inj h)
        obtain ⟨L, hL⟩ := reachable_lbas hv.sound hnd
        obtain ⟨r, u', hr2, hwku, -, hg, hslot⟩ :=
          findFreeDirEntry_spec hw hv.sound hv.flushed hnd
        obtain ⟨rfl, rfl⟩ := Prod.mk.inj (Option.some.inj (hfree.symm.trans hr2))
        have hq := hslot q rfl
        have hqin := freeSlot_inDir hq
        obtain ⟨hin, hans⟩ := finds_inDir hw hv.sound hod hr
        obtain ⟨hpin, hpent⟩ :=
          findFreeDirEntry_slots hw hv.sound hv.flushed hnd hfree hod hin
        have hload : u.loadEntry p = v.entryAt p := (loadEntry_eq hwku hpin).trans hpent
        rw [hload] at hwu
        generalize he : format83Name newName (v.entryAt p) = e at hwu
        obtain ⟨hmb, hmm, hmt, hms⟩ := moveEntry_table u p q e
        have hne : p ≠ q := answers_not_free hq (hpent ▸ hans)
        have hent := moveEntry_entryAt u p q e hne (inDir_readable hwku hpin)
          (inDir_readable hwku hqin)
        have hfat : ∀ lba, ¬ fatRegion u.bpb lba →
            w.disk.data lba = (moveEntry u p q e).disk.data lba := fun lba hl => by
          rw [← hwu]
          exact flushFat_frame _ lba (by rwa [hmb])
        have hwfat : ∀ x, w.fat x = u.fat x := fun x => by
          rw [← hwu, Volume.fat, Volume.fat]
          exact congrArg (fun f => (f x).toNat) hmt
        refine ⟨p, u, q, hr, hr', back_of_free hw hL hfree, he ▸ ?_, fun c hc => by
          rw [hwfat]
          exact search_frees_none hw hL hfree c hc⟩
        exact {
          workingB := hw
          workingU := hwku
          workingW := hwu ▸ working_congr hwku hmb hmm ((flushFat_size _).trans hms)
          sound := hv.sound
          grows := hg
          slot := hq
          first := fun M hM => findFreeDirEntry_first hw hv.sound hv.flushed hnd hM hfree
          slots := fun a x ha hx =>
            findFreeDirEntry_slots hw hv.sound hv.flushed hnd hfree ha hx
          rewrites := {
            bpb := hwu ▸ hmb
            fat := hwfat
            entry := fun a x hx => by
              obtain ⟨M, hM, hxM⟩ := hx
              have hx1 := dirLbas_not_fat hM (mem_slotsOf.mp hxM).1
              rw [Volume.entryAt, hfat x.1 hx1, ← Volume.entryAt, hent]
              by_cases hxq : x = q
              · rw [hxq, setAt_same, if_pos rfl]
              · rw [setAt_ne _ _ hxq, if_neg hxq]
                by_cases hxp : x = p
                · rw [hxp, setAt_same, if_pos (by simp)]
                · rw [setAt_ne _ _ hxp, if_neg (by simpa using Ne.symm hxp)]
            data := fun lba hl hlq hlp => by
              rw [hfat lba hl, moveEntry_other u p q e lba (hlp p (by simp)) hlq] }
          used := he ▸ format83_not_end h0 (v.entryAt p)
          listed := by
            rintro x ⟨rfl⟩
            exact ⟨od, hod, hin⟩ }

end Rename

/-- What a rename may do without harm to another entry: the new name hides none, and a directory
with entries in it gets a name that can be stored, in a directory that is not below it. -/
def Movable (v : Volume) (p : Slot) (dir : ℕ) (name : Name) : Prop :=
  ¬ Clashes v dir (some p) none name ∧ (¬ isDot (v.entryAt p) → ¬ EmptyDir v p →
    Storable name ∧ ¬ Below v (v.entryAt p).cluster dir)

section Moved

variable {v u w : Volume} {od nd : ℕ} {newName : Name} {p q : Slot} (hw : Working v) (hs : Sound v)
  (hod : Reachable v od) (hnd : Reachable v nd) (h0 : 0 ∉ newName) (hin : InDir v od p)
  (hsh : Shown (v.entryAt p)) (hnone : v.findDirEntry nd newName = some none)
  (hback : Back v u nd)
  (hp : Places v u w nd (some p) q (format83Name newName (v.entryAt p)))
include hw hs

/-- A path that passes the entry goes on below it. -/
theorem passed_below {np : List Name} {d : ℕ} (hnp : Plain np) (hdnp : descend v 0 np = some d)
    (hm : p ∈ steps v 0 np) : ∃ c rest, Reachable v c ∧ VisibleAt v c p ∧
      (v.entryAt p).isDirectory ∧ 2 ≤ (v.entryAt p).cluster ∧ Plain rest ∧
      descend v (v.entryAt p).cluster rest = some d := by
  obtain ⟨ms, o, rest, c, rfl, hms, ho, hdir, h2, hrest⟩ := step_split hdnp hm
  obtain ⟨hpm, hpo⟩ := plain_append.mp hnp
  obtain ⟨hno, hpr⟩ := plain_cons.mp hpo
  have hc := descend_reachable hw hs hpm hms
  exact ⟨c, rest, hc, ((finds_iff hw hs hc hno).mp ho).1, hdir, h2, hpr, hrest⟩

omit hw hs in
include h0 hsh in
/-- The moved entry is found under the names that the short form has. -/
theorem moved_found (n : Name) : Answers (format83Name newName (v.entryAt p)) n ↔
    ¬ (shortEntry newName).isDeleted ∧ entryName (shortEntry newName) = n.map upper := by
  constructor
  · exact fun ha => ⟨ha.1.kept, ha.2⟩
  · exact fun ha => ⟨⟨format83_not_end h0 _, ha.1, hsh.shown⟩, ha.2⟩

include hnd hnone hback in
/-- No entry that can be found has the new name. -/
theorem moved_absent : ∀ y, InDir u nd y → ¬ Answers (u.entryAt y) newName := by
  intro y hy hans
  obtain ⟨⟨L, hL, hyL⟩, hysame⟩ := hback y hy hans.1.used
  rw [hysame] at hans
  exact findDirEntry_absent hw hL (hs.ended nd L hnd hL) hnone y hyL hans.1 hans.2

include hp

omit hw hs in
/-- A step of a path that neither is the moved entry nor is hidden by it. -/
theorem moved_step (hclash : ¬ Clashes v nd (some p) none newName) {a : ℕ} {m : Name} {y : Slot}
    (ha : Reachable v a) (hm : NotDots m) (hf : Finds v a m y) (hy : y ∉ some p) :
    Finds w a m y ∧ w.entryAt y = v.entryAt y ∧ ((v.entryAt y).isDirectory →
      2 ≤ (v.entryAt y).cluster → Reachable v (v.entryAt y).cluster) := by
  obtain ⟨hyv, hyn⟩ := (finds_iff hp.workingB hp.sound ha hm).mp hf
  refine ⟨places_keeps hp ha hm hf hy fun hadir hans hb => hclash ?_, places_entry hp hyv ha hy,
    fun hdir h2 => ha.tail ⟨y, hyv, hdir, h2, rfl⟩⟩
  subst hadir
  obtain ⟨z, hz, hdel⟩ := hb
  exact ⟨hans.1.kept, y, z, hyv, hy, hyn.trans hans.2.symm, hz, Or.inl hdel⟩

include hnd h0 hsh hnone hback

/-- Every other entry is found under its new path. -/
theorem moved_keeps (hmov : Movable v p nd newName) :
    Confined v w (some p) [] (NewPath v p nd newName) := by
  obtain ⟨hclash, hdirs⟩ := hmov
  rintro ns n x hns hn ⟨d, hdns, hx⟩ hxp ns' hnew
  have hstep := fun a m y (ha : Reachable v a) => moved_step hp hclash (a := a) (m := m) (y := y) ha
  have hgo : ∀ {a c : ℕ} {ms : List Name}, Reachable v a → Plain ms → descend v a ms = some c →
      p ∉ steps v a ms → descend w a ms = some c := by
    intro a c ms ha hms hc hpm
    refine (path_transport (K := Reachable v) hstep ha hms hc fun r hr => ?_).1
    obtain rfl := Option.some.inj hr
    exact hpm
  have hd := descend_reachable hw hs hns hdns
  have hxv := ((finds_iff hw hs hd hn).mp hx).1
  obtain ⟨hxw, hxent, -⟩ := hstep d n x hd hn hx hxp
  refine ⟨?_, hxent, fun hfile => ?_, by simp⟩
  · rcases hnew with ⟨hpass, rfl⟩ | ⟨ms, o, rest, np, rfl, ⟨c, hms, ho⟩, hnp, hdnp, rfl⟩
    · exact ⟨d, hgo .refl hns hdns hpass, hxw⟩
    · -- the entry lay below the moved directory
      obtain ⟨c', hms', hrest⟩ := descend_append.mp hdns
      obtain rfl := Option.some.inj (hms.symm.trans hms')
      obtain ⟨p', hp', hdir, h2, hrest⟩ := descend_cons.mp hrest
      obtain rfl := finds_unique ho hp'
      obtain ⟨hpm, hpo⟩ := plain_append.mp hns
      obtain ⟨hno, hpr⟩ := plain_cons.mp hpo
      have hc := descend_reachable hw hs hpm hms
      have hpv := ((finds_iff hw hs hc hno).mp ho).1
      have hcl : Reachable v (v.entryAt p).cluster := hc.tail ⟨p, hpv, hdir, h2, rfl⟩
      obtain ⟨y, hy⟩ := path_inhabited hw hs hcl hpr hn hrest hx
      obtain ⟨hstore, hbelow⟩ := hdirs hpv.2.named fun hempty => hempty hdir h2 y hy
      have hnpass : p ∉ steps v 0 np := by
        intro hm
        obtain ⟨-, rest', -, -, -, -, hpr', hrest'⟩ := passed_below hw hs hnp hdnp hm
        exact hbelow (descend_below hw hs hcl hpr' hrest')
      have hq : Finds w nd newName q := by
        refine places_found hp (fun y hy hans => ?_) ((moved_found h0 hsh newName).mpr
          ((storable_iff h0 _).mp hstore))
        exact absurd hans (moved_absent hw hs hnd hnone hback y hy)
      have hqent := rewrites_new hp.rewrites (freeSlot_inDir hp.slot)
      refine ⟨d, descend_append.mpr ⟨nd, hgo .refl hnp hdnp hnpass,
        descend_cons.mpr ⟨q, hq, ?_⟩⟩, hxw⟩
      rw [hqent]
      exact ⟨hdir, h2, hgo hcl hpr hrest (steps_below hw hs hc hpv hdir h2 hpr hrest)⟩
  · exact readEntry_kept (hp.rewrites.bpb.trans hp.grows.bpb) hw hp.workingW hs hd hxv
      (places_kept hp hd hxv hxp) hfile

include hod hin

omit h0 in
/-- Were the directory moved below itself, no path would lead there any more. -/
theorem moved_apart (hconf : Confined v w (some p) [] (NewPath v p nd newName))
    (hdot : ¬ isDot (v.entryAt p)) (hne : ¬ EmptyDir v p) :
    ¬ Below v (v.entryAt p).cluster nd := by
  intro hbelow
  simp only [EmptyDir, not_forall, not_not] at hne
  obtain ⟨hdir, h2, y, hy⟩ := hne
  have hpv : VisibleAt v od p := ⟨hin, hsh.used, hsh.kept, hsh.shown, hdot⟩
  have hcl : Reachable v (v.entryAt p).cluster := hod.tail ⟨p, hpv, hdir, h2, rfl⟩
  obtain ⟨ms, o, rest, hms, ho, hpr, hdms, hfo, hrest⟩ := below_steps hw hs hod hpv hdir h2 hbelow
  obtain ⟨hm, hfm⟩ := visible_found hw hs hcl hy
  have hyp : y ∉ some p := fun hh =>
    below_other hs hod hpv hdir h2 hy (Option.some.inj hh).symm
  have hnp : descend v 0 (ms++o::rest) = some nd :=
    descend_append.mpr ⟨od, hdms, descend_cons.mpr ⟨p, hfo, hdir, h2, hrest⟩⟩
  have hleads := leads_snoc ⟨od, hdms, hfo⟩ hdir h2 hfm
  obtain ⟨⟨c, hc, -⟩, -⟩ := hconf (ms++[o]) _ y (plain_append.mpr ⟨hms, by simpa [Plain] using ho⟩)
    hm hleads hyp _ (Or.inr ⟨ms, o, [], ms++o::rest, rfl, ⟨od, hdms, hfo⟩,
      plain_append.mpr ⟨hms, plain_cons.mpr ⟨ho, hpr⟩⟩, hnp, rfl⟩)
  -- the path to the new directory went through the old entry
  rw [List.append_assoc] at hc
  obtain ⟨a, ha, hc⟩ := descend_append.mp hc
  have hdw := confined_descend hconf (fun _ hpass => Or.inl ⟨hpass p rfl, rfl⟩) hms hdms
    fun r hr => (Option.some.inj hr) ▸ steps_own hw hs hms hdms hpv
  obtain rfl := Option.some.inj (ha.symm.trans hdw)
  obtain ⟨z, hz, -⟩ := descend_cons.mp hc
  rcases places_back hp hod ho hz with ⟨rfl, -⟩ | ⟨hzv, hzp⟩
  · obtain ⟨L, hL⟩ := reachable_lbas hp.grows.sound ((hp.grows.reach a).mpr hod)
    have hzin : InDir u a z :=
      ⟨L, hL, (rewrites_back hp.workingW hp.rewrites hL hz).1⟩
    obtain rfl := inDir_unique hp.grows.sound ((hp.grows.reach a).mpr hod) hp.slot.reachable hzin
      (freeSlot_inDir hp.slot)
    exact own_clear hs hod hpv p rfl hdir h2 hbelow
  · exact hzp (finds_unique hfo hzv ▸ rfl)

/-- What lay below a moved directory is found when its new name is. -/
theorem moved_storable (hconf : Confined v w (some p) [] (NewPath v p nd newName))
    (hdot : ¬ isDot (v.entryAt p)) (hne : ¬ EmptyDir v p) : Storable newName := by
  have hbelow := moved_apart hw hs hod hnd hin hsh hnone hback hp hconf hdot hne
  simp only [EmptyDir, not_forall, not_not] at hne
  obtain ⟨hdir, h2, y, hy⟩ := hne
  have hpv : VisibleAt v od p := ⟨hin, hsh.used, hsh.kept, hsh.shown, hdot⟩
  have hcl : Reachable v (v.entryAt p).cluster := hod.tail ⟨p, hpv, hdir, h2, rfl⟩
  obtain ⟨ms, o, hms, ho, hdms, hfo⟩ := visible_path hw hs hod hpv
  obtain ⟨np, hnp, hdnp⟩ := below_path hw hs .refl hnd
  obtain ⟨hm, hfm⟩ := visible_found hw hs hcl hy
  have hyp : y ∉ some p := fun hh =>
    below_other hs hod hpv hdir h2 hy (Option.some.inj hh).symm
  obtain ⟨⟨c, hc, -⟩, -⟩ := hconf (ms++[o]) _ y (plain_append.mpr ⟨hms, by simpa [Plain] using ho⟩)
    hm (leads_snoc ⟨od, hdms, hfo⟩ hdir h2 hfm) hyp _
    (Or.inr ⟨ms, o, [], np, rfl, ⟨od, hdms, hfo⟩, hnp, hdnp, rfl⟩)
  obtain ⟨a, z, ha, hz, -⟩ := descend_snoc.mp hc
  have hdw := confined_descend hconf (fun _ hpass => Or.inl ⟨hpass p rfl, rfl⟩) hnp hdnp
    fun r hr hm => by
      obtain rfl := Option.some.inj hr
      obtain ⟨-, rest, -, -, -, -, hpr, hrest⟩ := passed_below hw hs hnp hdnp hm
      exact hbelow (descend_below hw hs hcl hpr hrest)
  obtain rfl := Option.some.inj (ha.symm.trans hdw)
  obtain ⟨L, hL⟩ := reachable_lbas hp.grows.sound hp.slot.reachable
  obtain ⟨hzL, ⟨-, hans⟩ | ⟨-, -, hans⟩⟩ := rewrites_back hp.workingW hp.rewrites hL hz
  · exact (storable_iff h0 _).mpr ((moved_found h0 hsh newName).mp hans)
  · exact absurd hans (moved_absent hw hs hnd hnone hback z ⟨L, hL, hzL⟩)

/-- An entry that the moved one hides is not found any more. -/
theorem moved_hides (hconf : Confined v w (some p) [] (NewPath v p nd newName)) :
    ¬ Clashes v nd (some p) none newName := by
  rintro ⟨hdel, x, y, hx, hxp, hn, hprec, hfree⟩
  obtain ⟨hm, hfm⟩ := visible_found hw hs hnd hx
  obtain ⟨np, hnp, hdnp⟩ := below_path hw hs .refl hnd
  have hpass : p ∉ steps v 0 np := by
    intro hmem
    obtain ⟨c, rest, hc, hpv, hdir, h2, hpr, hrest⟩ := passed_below hw hs hnp hdnp hmem
    have hcl : Reachable v (v.entryAt p).cluster := hc.tail ⟨p, hpv, hdir, h2, rfl⟩
    obtain ⟨z, hz⟩ := path_inhabited hw hs hcl hpr hm hrest hfm
    exact moved_apart hw hs hod hnd hin hsh hnone hback hp hconf hpv.2.named
      (fun hempty => hempty hdir h2 z hz) (descend_below hw hs hcl hpr hrest)
  obtain ⟨⟨c, hc, hfx⟩, -⟩ := hconf np _ x hnp hm ⟨nd, hdnp, hfm⟩ hxp np (Or.inl ⟨hpass, rfl⟩)
  have hdw := confined_descend hconf (fun _ hpass => Or.inl ⟨hpass p rfl, rfl⟩) hnp hdnp
    fun r hr => (Option.some.inj hr) ▸ hpass
  obtain rfl := Option.some.inj (hc.symm.trans hdw)
  have hq := places_hides hp hnd hm hfm ((moved_found h0 hsh _).mpr ⟨hdel, hn.symm⟩)
    ⟨y, hprec, hfree.resolve_right (by simp)⟩
  obtain rfl := finds_unique hfx hq
  exact freeSlot_not_visible hp.slot ((hp.grows.visible c x hnd).mpr hx).2

/-- What moving an entry does to the others. -/
theorem moved_confined :
    Confined v w (some p) [] (NewPath v p nd newName) ↔ Movable v p nd newName := by
  refine ⟨fun hconf => ⟨?_, fun hdot hne => ⟨?_, ?_⟩⟩, ?_⟩
  · exact moved_hides hw hs hod hnd h0 hin hsh hnone hback hp hconf
  · exact moved_storable hw hs hod hnd h0 hin hsh hnone hback hp hconf hdot hne
  · exact moved_apart hw hs hod hnd hin hsh hnone hback hp hconf hdot hne
  · exact moved_keeps hw hs hnd h0 hsh hnone hback hp

end Moved

section Calls

variable {heap heap' : ℕ → Bool} {s t : Session} {path oldpath newpath : List UInt8}

theorem vfsUnlink_cases (h : vfsUnlink heap s path = some (true, t)) :
    ∃ parent, vfsResolvePath heap s.volume (splitParentAndName path).1 = some (some parent) ∧
      fat16Unlink s.volume parent.inodeNum (splitParentAndName path).2 = some (true, t.volume) := by
  unfold vfsUnlink at h
  split_ifs at h
  · simp at h
  · obtain ⟨r, hr, h⟩ := Option.bind_eq_some_iff.mp h
    cases r with
    | none => simp at h
    | some parent =>
      obtain ⟨⟨ok, w⟩, hrun, hw⟩ := Option.map_eq_some_iff.mp h
      obtain ⟨rfl, rfl⟩ := Prod.mk.inj hw
      exact ⟨parent, hr, hrun⟩

theorem vfsRename_cases (h : vfsRename heap heap' s oldpath newpath = some (true, t)) :
    ∃ oldParent newParent,
      vfsResolvePath heap s.volume (splitParentAndName oldpath).1 = some (some oldParent) ∧
      vfsResolvePath heap' s.volume (splitParentAndName newpath).1 = some (some newParent) ∧
      fat16Rename s.volume oldParent.inodeNum (splitParentAndName oldpath).2 newParent.inodeNum
        (splitParentAndName newpath).2 = some (true, t.volume) := by
  unfold vfsRename at h
  split_ifs at h
  · simp at h
  · obtain ⟨r, hr, h⟩ := Option.bind_eq_some_iff.mp h
    cases r with
    | none => simp at h
    | some oldParent =>
      obtain ⟨r', hr', h⟩ := Option.bind_eq_some_iff.mp h
      cases r' with
      | none => simp at h
      | some newParent =>
        obtain ⟨⟨ok, w⟩, hrun, hw⟩ := Option.map_eq_some_iff.mp h
        obtain ⟨rfl, rfl⟩ := Prod.mk.inj hw
        exact ⟨oldParent, newParent, hr, hr', hrun⟩

/-- A call that succeeds in directories of the tree leaves every entry that it does not name as it
is and where it was, one that lay below a renamed directory under the new name, exactly when it
replaces or removes nothing but a file, an empty directory or a `.` or `..` without a cluster of
the tree, the new name hides no entry, and a directory that is not empty is moved under a name
that can be stored to a place outside itself. -/
theorem path_operations_confined {s : Session} (hw : Working s.volume)
    (hv : WellFormed s.volume) :
    (∀ heap lookupOk createOk path data now t, 0 ∉ path →
      vfsWriteFile heap lookupOk createOk s path data now = some (true, t) →
      ∃ parent, vfsResolvePath heap s.volume (splitParentAndName path).1 = some (some parent) ∧
        (Reachable s.volume parent.inodeNum → ∃ found,
          s.volume.findDirEntry parent.inodeNum (splitParentAndName path).2 = some found ∧
          (lookupOk = true ∨ found = none ∨ NotDots (splitParentAndName path).2 →
            (Confined s.volume t.volume found (freed s.volume found) Eq ↔
              Replaceable s.volume parent.inodeNum (splitParentAndName path).2 found)))) ∧
    (∀ heap path t, vfsUnlink heap s path = some (true, t) →
      ∃ parent, vfsResolvePath heap s.volume (splitParentAndName path).1 = some (some parent) ∧
        (Reachable s.volume parent.inodeNum → ∃ p,
          Finds s.volume parent.inodeNum (splitParentAndName path).2 p ∧
          (Confined s.volume t.volume (some p) (freedWith s.volume p) Eq ↔
            Removable s.volume p))) ∧
    (∀ heap heap' oldpath newpath t, 0 ∉ newpath →
      vfsRename heap heap' s oldpath newpath = some (true, t) → ∃ oldParent newParent,
        vfsResolvePath heap s.volume (splitParentAndName oldpath).1 = some (some oldParent) ∧
        vfsResolvePath heap' s.volume (splitParentAndName newpath).1 = some (some newParent) ∧
        (Reachable s.volume oldParent.inodeNum → Reachable s.volume newParent.inodeNum → ∃ p,
          Finds s.volume oldParent.inodeNum (splitParentAndName oldpath).2 p ∧
          (∀ c, s.volume.fat c ≠ 0 → t.volume.fat c ≠ 0) ∧
          (Confined s.volume t.volume (some p) []
              (NewPath s.volume p newParent.inodeNum (splitParentAndName newpath).2) ↔
            Movable s.volume p newParent.inodeNum (splitParentAndName newpath).2))) := by
  refine ⟨fun heap lookupOk createOk path data now t h0 h => ?_, fun heap path t h => ?_,
    fun heap heap' oldpath newpath t h0 h => ?_⟩
  · exact write_file_confined hw hv.sound h0 h
  · obtain ⟨parent, hparent, hrun⟩ := vfsUnlink_cases h
    exact ⟨parent, hparent, fun hd => unlink_confined hw hv hd hrun⟩
  · obtain ⟨oldParent, newParent, hold, hnew, hrun⟩ := vfsRename_cases h
    refine ⟨oldParent, newParent, hold, hnew, fun hod hnd => ?_⟩
    have h0' := split_clean h0
    obtain ⟨p, u, q, hf, hnone, hback, hp, hfat⟩ := rename_places hw hv hod hnd h0' hrun
    obtain ⟨hin, hsh, -⟩ := finds_inDir hw hv.sound hod hf
    exact ⟨p, hf, hfat, moved_confined hw hv.sound hod hnd h0' hin hsh hnone hback hp⟩

end Calls

section Example

/-- A directory `D` with a file `A` in it, made on an empty volume. -/
structure Nested (v : Volume) : Prop where
  working : Working v
  wellFormed : WellFormed v
  directory : Finds v 0 [0x44] (2, 0)
  isDirectory : (v.entryAt (2, 0)).isDirectory
  cluster : (v.entryAt (2, 0)).cluster = 2
  file : Finds v 2 [0x41] (3, 2)
  isFile : ¬ (v.entryAt (3, 2)).isDirectory
  named : ¬ isDot (v.entryAt (3, 2))

def nested : Option Volume := do
  let (_, u) ← fat16Mkdir Fat16Runs.blank 0 [0x44] ⟨0, 0⟩
  let (_, v) ← writeFileInDir u 2 [0x41] [1, 2, 3] ⟨0, 0⟩
  return v

theorem validName_D : ValidName [0x44] := ⟨[0x44], [], by decide +kernel⟩

theorem nested_reachable {v : Volume} (h : Nested v) : Reachable v 2 := by
  have hvis := ((finds_iff h.working h.wellFormed.sound .refl
    (validName_notDots validName_D)).mp h.directory).1
  exact ReflTransGen.single ⟨(2, 0), hvis, h.isDirectory, le_refl 2, h.cluster⟩

theorem nested_unlinks : ∃ v, Nested v ∧
    (∃ t, vfsUnlink granted ⟨v, []⟩ [slash, 0x44] = some (true, t) ∧
      t.volume.findDirEntry 0 [0x44] = some none) ∧
    (∃ t, vfsUnlink granted ⟨v, []⟩ [slash, 0x44, slash, 0x41] = some (true, t)) ∧
    vfsResolvePath granted v [slash, 0x44] =
      some (some ⟨.directory, 0, 2, some ([0x44], 0)⟩) := by
  obtain ⟨ok, u, hu, hwu, hvu, -⟩ := Fat16Namespace.fat16Mkdir_spec Fat16Runs.blank_working
    Fat16Runs.blank_wellFormed .refl (validName_fits validName_D Fat16Runs.blank 0) ⟨0, 0⟩
  have hfound : (fat16Mkdir Fat16Runs.blank 0 [0x44] ⟨0, 0⟩).map (fun r =>
      (r.1, r.2.findDirEntry 0 [0x44], decide (r.2.entryAt (2, 0)).isDirectory,
        (r.2.entryAt (2, 0)).cluster)) = some (true, some (some (2, 0)), true, 2) := by
    decide +kernel
  rw [hu] at hfound
  obtain ⟨rfl, hfindD, hdir, hcl⟩ : ok = true ∧ u.findDirEntry 0 [0x44] = some (some (2, 0)) ∧
      (u.entryAt (2, 0)).isDirectory ∧ (u.entryAt (2, 0)).cluster = 2 := by
    simpa using hfound
  have h2 : Reachable u 2 := by
    have hvis := ((finds_iff hwu hvu.sound .refl (validName_notDots validName_D)).mp hfindD).1
    exact ReflTransGen.single ⟨(2, 0), hvis, hdir, le_refl 2, hcl⟩
  obtain ⟨ok, v, hrun, hw, hv, -⟩ := writeFileInDir_spec hwu hvu h2
    (validName_fits Fat16Runs.validName_A u 2) [1, 2, 3] ⟨0, 0⟩
  have hmade : nested = some v := by simp [nested, hu, hrun]
  have hfile : nested.map (fun v => decide (v.findDirEntry 0 [0x44] = some (some (2, 0)) ∧
      (v.entryAt (2, 0)).isDirectory ∧ (v.entryAt (2, 0)).cluster = 2 ∧
      v.findDirEntry 2 [0x41] = some (some (3, 2)) ∧ ¬ (v.entryAt (3, 2)).isDirectory ∧
      ¬ isDot (v.entryAt (3, 2)))) = some true := by decide +kernel
  have hcalls : nested.map (fun v => decide (
      (vfsUnlink granted ⟨v, []⟩ [slash, 0x44]).map (fun r =>
        (r.1, r.2.volume.findDirEntry 0 [0x44])) = some (true, some none) ∧
      (vfsUnlink granted ⟨v, []⟩ [slash, 0x44, slash, 0x41]).map Prod.fst = some true ∧
      vfsResolvePath granted v [slash, 0x44] =
        some (some ⟨.directory, 0, 2, some ([0x44], 0)⟩))) = some true := by decide +kernel
  rw [hmade, Option.map_some, Option.some.injEq, decide_eq_true_eq] at hfile hcalls
  obtain ⟨h1, h2, h3, h4, h5, h6⟩ := hfile
  obtain ⟨hD, hA, hres⟩ := hcalls
  obtain ⟨⟨ok1, t⟩, ht, hgone⟩ := Option.map_eq_some_iff.mp hD
  obtain ⟨⟨ok2, t'⟩, ht', rfl⟩ := Option.map_eq_some_iff.mp hA
  obtain ⟨rfl, hgone⟩ := Prod.mk.inj hgone
  exact ⟨v, ⟨hw, hv, h1, h2, h3, h4, h5, h6⟩, ⟨t, ht, hgone⟩, ⟨t', ht'⟩, hres⟩

/-- The file goes and the directory stays. -/
theorem path_operations_confined_nested : ∃ v t, Nested v ∧
    vfsUnlink granted ⟨v, []⟩ [slash, 0x44, slash, 0x41] = some (true, t) ∧
    Confined v t.volume (some (3, 2)) (freedWith v (3, 2)) Eq := by
  obtain ⟨v, hn, -, ⟨t, ht⟩, hres⟩ := nested_unlinks
  obtain ⟨-, hunlink, -⟩ := path_operations_confined (s := ⟨v, []⟩) hn.working hn.wellFormed
  obtain ⟨parent, hparent, hp⟩ := hunlink _ _ t ht
  have hsplit : splitParentAndName [slash, 0x44, slash, 0x41] = ([slash, 0x44], [0x41]) := by
    decide
  rw [hsplit] at hparent hp
  obtain rfl := Option.some.inj (Option.some.inj (hparent.symm.trans hres))
  obtain ⟨p, hf, hiff⟩ := hp (nested_reachable hn)
  obtain rfl := finds_unique hn.file hf
  exact ⟨v, t, hn, ht, hiff.mpr ⟨fun hdot => absurd hdot hn.named,
    fun _ hdir => absurd hdir hn.isFile⟩⟩

/-- The directory is unlinked with the file in it, which no path leads to any more. -/
theorem directory_unlinked : ∃ v t, Nested v ∧
    vfsUnlink granted ⟨v, []⟩ [slash, 0x44] = some (true, t) ∧
    Leads v [[0x44]] [0x41] (3, 2) ∧ ¬ Leads t.volume [[0x44]] [0x41] (3, 2) ∧
    ¬ Confined v t.volume (some (2, 0)) (freedWith v (2, 0)) Eq := by
  obtain ⟨v, hn, ⟨t, ht, hgone⟩, -⟩ := nested_unlinks
  have hleads : Leads v [[0x44]] [0x41] (3, 2) := by
    refine ⟨2, descend_cons.mpr ⟨(2, 0), hn.directory, hn.isDirectory, ?_, ?_⟩, hn.file⟩
    · rw [hn.cluster]
    · rw [hn.cluster]
      rfl
  have hlost : ¬ Leads t.volume [[0x44]] [0x41] (3, 2) := by
    rintro ⟨d, hd, -⟩
    obtain ⟨p, hp, -⟩ := descend_cons.mp hd
    exact absurd (hgone.symm.trans hp) (by simp)
  refine ⟨v, t, hn, ht, hleads, hlost, fun hconf => hlost ?_⟩
  have hD : Plain [[0x44]] := by
    intro n hn
    rw [List.mem_singleton.mp hn]
    exact validName_notDots validName_D
  exact (hconf [[0x44]] [0x41] (3, 2) hD (validName_notDots Fat16Runs.validName_A) hleads
    (by simp) _ rfl).1

end Example

end Vlsmc.PathRenames
