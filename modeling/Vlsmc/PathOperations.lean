import Mathlib.Data.List.Induction
import Vlsmc.DirectoryEdits
import Vlsmc.Vfs

/-!
# What a path operation leaves alone

`vfs_write_file`, `vfs_unlink` and `vfs_rename` name one entry. Every other entry should keep its
path, a moved directory taking what lies below it along, its record, its clusters and, when it is
a file, its contents. The driver frees the chain and deletes the slot of whatever the name is
found at, `.`, `..` and full directories included, moves directories below themselves, and
shortens names without looking for the short one.
-/

set_option autoImplicit false

namespace Vlsmc.PathOperations
open Vlsmc.Fat16Layout Vlsmc.Fat16Names Vlsmc.Fat16Volume Vlsmc.Fat16Files
open Vlsmc.Fat16Geometry Vlsmc.Fat16Chains Vlsmc.Fat16Directory Vlsmc.Fat16Soundness
open Vlsmc.Fat16Updates Vlsmc.Fat16Growth Vlsmc.Fat16Store Vlsmc.Fat16Effects
open Vlsmc.Fat16Operations Vlsmc.Fat16RoundTrip Vlsmc.Fat16Runs Vlsmc.Vfs
open Vlsmc.PathLookups Vlsmc.DirectoryEdits Vlsmc.RootedTree
open Relation

/-- The entry keeps its record and its clusters, and a file its contents. -/
structure Untouched (v w : Volume) (freed : List ℕ) (p : Slot) : Prop where
  entry : w.entryAt p = v.entryAt p
  contents : ¬ (v.entryAt p).isDirectory → ∀ offset n,
    readEntry w (w.entryAt p) offset n = readEntry v (v.entryAt p) offset n
  clusters : ∀ l, FatChain v (v.entryAt p).cluster l → ∀ c ∈ l, c ∉ freed

/-- Every entry with a path, except the named one, is there under its new path. -/
def Confined (v w : Volume) (named : Option Slot) (freed : List ℕ)
    (new : List Name → List Name → Prop) : Prop :=
  ∀ ns n p, Plain ns → NotDots n → Leads v ns n p → p ∉ named → ∀ ns', new ns ns' →
    Leads w ns' n p ∧ Untouched v w freed p

/-- The directories of a path after `old` went to directory `dir` under the name. -/
def NewPath (v : Volume) (old : Slot) (dir : ℕ) (name : Name) (ns ns' : List Name) : Prop :=
  (old ∉ steps v 0 ns ∧ ns' = ns) ∨ ∃ ms o rest np, ns = ms++o::rest ∧ Leads v ms o old ∧
    Plain np ∧ descend v 0 np = some dir ∧ ns' = np++name::rest

/-- The clusters that go with the entry that is replaced or unlinked. -/
def freed (v : Volume) (named : Option Slot) : List ℕ := named.elim [] (freedWith v)

def EmptyDir (v : Volume) (p : Slot) : Prop := (v.entryAt p).isDirectory →
  2 ≤ (v.entryAt p).cluster → ∀ x, ¬ VisibleAt v (v.entryAt p).cluster x

/-- `.` and `..` may go without a cluster of the tree, other entries with nothing below them. -/
def Removable (v : Volume) (p : Slot) : Prop :=
  FreesOwn v p ∧ (¬ isDot (v.entryAt p) → EmptyDir v p)

/-- The entry that `format_83_name` makes in a cleared slot. -/
def shortEntry (name : Name) : DirEntry := format83Name name (getEntry zeroSector 0)

/-- An entry of the directory other than `named` has the short form of the name for its name, and
comes behind a slot that is free once `dropped` is. -/
def Clashes (v : Volume) (dir : ℕ) (named dropped : Option Slot) (name : Name) : Prop :=
  ¬ (shortEntry name).isDeleted ∧ ∃ x y, VisibleAt v dir x ∧ x ∉ named ∧
    entryName (v.entryAt x) = entryName (shortEntry name) ∧ Precedes v dir y x ∧
    ((v.entryAt y).isDeleted ∨ y ∈ dropped)

section General

variable {v w : Volume} {dir : ℕ} {name : Name} {p : Slot} (hw : Working v) (hs : Sound v)
include hw hs

theorem finds_inDir {d : ℕ} (hd : Reachable v d) {n : Name} (h : Finds v d n p) :
    InDir v d p ∧ Answers (v.entryAt p) n := by
  obtain ⟨L, hL⟩ := reachable_lbas hs hd
  obtain ⟨hp, hsh, hname⟩ := findDirEntry_found hw hL h
  exact ⟨⟨L, hL, hp⟩, hsh, hname⟩

omit hw hs in
/-- A path without the named entry leads to the same directory. -/
theorem confined_descend {named : Option Slot} {fr : List ℕ} {new : List Name → List Name → Prop}
    (h : Confined v w named fr new) (hnew : ∀ ns, (∀ p ∈ named, p ∉ steps v 0 ns) → new ns ns)
    {ns : List Name} (hns : Plain ns) {d : ℕ} (hd : descend v 0 ns = some d)
    (hnot : ∀ p ∈ named, p ∉ steps v 0 ns) : descend w 0 ns = some d := by
  induction ns using List.reverseRecOn generalizing d with
  | nil => exact hd
  | append_singleton ns n ih =>
    obtain ⟨hpn, hn⟩ := plain_append.mp hns
    obtain ⟨c, q, hc, hq, hdir, h2, rfl⟩ := descend_snoc.mp hd
    have hsteps : steps v 0 (ns++[n]) = steps v 0 ns++[q] := steps_snoc hc hq
    rw [hsteps] at hnot
    have hnot' : ∀ p ∈ named, p ∉ steps v 0 ns := fun p hp hm => hnot p hp (by simp [hm])
    have hcw := ih hpn hc hnot'
    obtain ⟨⟨c', hc', hqw⟩, hun⟩ := h ns n q hpn (hn n (by simp)) ⟨c, hc, hq⟩
      (fun hp => hnot q hp (by simp)) ns (hnew ns hnot')
    obtain rfl := Option.some.inj (hcw.symm.trans hc')
    exact descend_snoc.mpr ⟨c, q, hcw, hqw, by rw [hun.entry]; exact ⟨hdir, h2, rfl⟩⟩

/-- A path to a directory does not pass the entries in it. -/
theorem steps_own {ns : List Name} (hns : Plain ns) (hd : descend v 0 ns = some dir)
    (hp : VisibleAt v dir p) : p ∉ steps v 0 ns := by
  intro hm
  obtain ⟨ms, o, rest, c, rfl, hms, ho, hdir, h2, hrest⟩ := step_split hd hm
  obtain ⟨hpm, hpo⟩ := plain_append.mp hns
  obtain ⟨hno, hpr⟩ := plain_cons.mp hpo
  have hc := descend_reachable hw hs hpm hms
  have hin := ((finds_iff hw hs hc hno).mp ho).1
  have hb := descend_below hw hs (hc.tail ⟨p, hin, hdir, h2, rfl⟩) hpr hrest
  obtain rfl := inDir_unique hs hc ((hc.tail ⟨p, hin, hdir, h2, rfl⟩).trans hb) hin.1 hp.1
  exact own_clear hs hc hin p rfl hdir h2 hb

omit hw in
/-- A directory is not among the entries in it. -/
theorem below_other (hd : Reachable v dir) (hp : VisibleAt v dir p) (hdir : (v.entryAt p).isDirectory)
    (h2 : 2 ≤ (v.entryAt p).cluster) {x : Slot} (hx : VisibleAt v (v.entryAt p).cluster x) :
    x ≠ p := by
  rintro rfl
  have heq := inDir_unique hs (hd.tail ⟨x, hp, hdir, h2, rfl⟩) hd hx.1 hp.1
  exact own_clear hs hd hp x rfl hdir h2 (heq ▸ ReflTransGen.refl)

omit hw hs in
/-- The root lies below no entry. -/
theorem clear_root (hs : Sound v) (gone : Option Slot) : Clear v gone 0 := by
  intro r _ _ h2 hb
  rcases ReflTransGen.cases_tail hb with he | ⟨b, -, hb⟩
  · omega
  · exact (directories_rooted hs).top b hb

omit hw in
/-- The next directory on a path is not below the lost entry. -/
theorem clear_next {gone : Option Slot} {a : ℕ} {q : Slot}
    (hgone : ∀ r ∈ gone, ∃ d, Reachable v d ∧ VisibleAt v d r) (ha : Reachable v a)
    (hclear : Clear v gone a) (hq : VisibleAt v a q) (hne : q ∉ gone)
    (hdir : (v.entryAt q).isDirectory) (h2 : 2 ≤ (v.entryAt q).cluster) :
    Clear v gone (v.entryAt q).cluster := by
  intro r hr hrdir hr2 hb
  obtain ⟨d, hd, hrv⟩ := hgone r hr
  rcases ReflTransGen.cases_tail hb with he | ⟨b, hrb, hbq⟩
  · obtain rfl := cluster_unique hs ha hq hd hrv h2 he
    exact hne hr
  · have hrr : Reachable v (v.entryAt r).cluster := hd.tail ⟨r, hrv, hrdir, hr2, rfl⟩
    obtain rfl := (directories_rooted hs).parent b a _ (hrr.trans hrb) ha hbq
      ⟨q, hq, hdir, h2, rfl⟩
    exact hclear r hr hrdir hr2 hrb

/-- Without `.` or `..` being freed with clusters of the tree, the clusters of the other entries
stay. -/
theorem clusters_stay (hd : Reachable v dir) (hf : Finds v dir name p) (hfree : FreesOwn v p)
    {a : ℕ} {x : Slot} (ha : Reachable v a) (hx : VisibleAt v a x) (hne : x ≠ p) (l : List ℕ)
    (hl : FatChain v (v.entryAt x).cluster l) : ∀ c ∈ l, c ∉ freedWith v p := by
  obtain ⟨hin, hsh, -⟩ := finds_inDir hw hs hd hf
  by_cases hdot : isDot (v.entryAt p)
  · exact fun c hc hm => hfree hdot c hm ⟨a, x, l, ha, hx, hl, hc⟩
  · exact freedWith_apart hs hd ⟨hin, hsh.used, hsh.kept, hsh.shown, hdot⟩ ha hx hne hl

/-- When everything else is untouched, `.` and `..` were freed without a cluster of the tree. -/
theorem confined_freesOwn {fr : List ℕ} (hfr : ∀ c ∈ freedWith v p, c ∈ fr)
    (h : Confined v w (some p) fr Eq) : FreesOwn v p := by
  rintro hdot c hc ⟨a, x, l, ha, hx, hl, hcl⟩
  obtain ⟨ns, n, hns, hn, hdns, hf⟩ := visible_path hw hs ha hx
  have hne : x ∉ some p := by
    rintro ⟨rfl⟩
    exact hx.2.named hdot
  exact (h ns n x hns hn ⟨a, hdns, hf⟩ hne ns rfl).2.clusters l hl c hcl (hfr c hc)

end General

section Spared

variable {v w : Volume} {gone : Option Slot} (hw : Working v) (hs : Sound v) (hww : Working w)
  (hsw : Sound w) (hb : w.bpb = v.bpb) (hsp : Spares v w gone)
  (hgone : ∀ p ∈ gone, ∃ d, Reachable v d ∧ VisibleAt v d p)
include hw hs hww hsw hsp hgone

/-- One step of a path on which nothing is lost. -/
theorem spares_step {a : ℕ} (ha : Reachable v a) (hclear : Clear v gone a) {n : Name}
    (hn : NotDots n) {q : Slot} (hq : Finds v a n q) (hne : q ∉ gone) :
    Finds w a n q ∧ Kept v w q ∧ ((v.entryAt q).isDirectory → 2 ≤ (v.entryAt q).cluster →
      Reachable v (v.entryAt q).cluster ∧ Clear v gone (v.entryAt q).cluster) := by
  obtain ⟨hqv, hname⟩ := (finds_iff hw hs ha hn).mp hq
  obtain ⟨haw, hkeep⟩ := hsp a ha hclear
  obtain ⟨hqw, hk⟩ := hkeep q hqv hne
  refine ⟨(finds_iff hww hsw haw hn).mpr ⟨hqw, by rw [hk.entry, hname]⟩, hk, fun hdir h2 => ?_⟩
  exact ⟨ha.tail ⟨q, hqv, hdir, h2, rfl⟩, clear_next hs hgone ha hclear hqv hne hdir h2⟩

omit hww hsw hsp in
/-- No path to another entry goes through an entry with nothing below it. -/
theorem empty_not_passed (hempty : ∀ p ∈ gone, EmptyDir v p) {d : ℕ} {ns : List Name} {n : Name}
    {x : Slot} (hns : Plain ns) (hn : NotDots n) (hd : descend v 0 ns = some d)
    (hx : Finds v d n x) : ∀ p ∈ gone, p ∉ steps v 0 ns := by
  intro p hp hm
  obtain ⟨d0, hd0, hpv⟩ := hgone p hp
  obtain ⟨ms, o, rest, c, rfl, -, -, hdir, h2, hrest⟩ := step_split hd hm
  have hpr := (plain_cons.mp (plain_append.mp hns).2).2
  obtain ⟨y, hy⟩ := path_inhabited hw hs (hd0.tail ⟨p, hpv, hdir, h2, rfl⟩) hpr hn hrest hx
  exact hempty p hp hdir h2 y hy

/-- A path that passes nothing lost leads on to where `u` shows the same entries as `w`. -/
theorem spared_path {u : Volume} (hu : ∀ a m q, Reachable w a → NotDots m → q ∉ gone →
      VisibleAt v a q → Finds w a m q → Finds u a m q ∧ u.entryAt q = w.entryAt q)
    {d : ℕ} {ns : List Name} {n : Name} {x : Slot} (hns : Plain ns) (hn : NotDots n)
    (hd : descend v 0 ns = some d) (hx : Finds v d n x) (hxg : x ∉ gone)
    (hpass : ∀ p ∈ gone, p ∉ steps v 0 ns) :
    Leads u ns n x ∧ Reachable v d ∧ VisibleAt v d x ∧ Reachable w d ∧ VisibleAt w d x ∧
      Kept v w x := by
  have hstep : ∀ a m q, Reachable v a ∧ Clear v gone a → NotDots m → Finds v a m q → q ∉ gone →
      Finds u a m q ∧ Kept v w q ∧ u.entryAt q = v.entryAt q ∧ ((v.entryAt q).isDirectory →
        2 ≤ (v.entryAt q).cluster → Reachable v (v.entryAt q).cluster ∧
          Clear v gone (v.entryAt q).cluster) := by
    intro a m q ha hm hq hne
    obtain ⟨hqw, hk, hnext⟩ := spares_step hw hs hww hsw hsp hgone ha.1 ha.2 hm hq hne
    obtain ⟨hqu, hent⟩ := hu a m q (hsp a ha.1 ha.2).1 hm hne ((finds_iff hw hs ha.1 hm).mp hq).1 hqw
    exact ⟨hqu, hk, hent.trans hk.entry, hnext⟩
  obtain ⟨hdu, hdr, hclear⟩ := path_transport (K := fun a => Reachable v a ∧ Clear v gone a)
    (fun a m q ha hm hq hne => by
      obtain ⟨hqu, -, hent, hnext⟩ := hstep a m q ha hm hq hne
      exact ⟨hqu, hent, hnext⟩) ⟨ReflTransGen.refl, clear_root hs gone⟩ hns hd hpass
  obtain ⟨hxu, hk, -⟩ := hstep d n x ⟨hdr, hclear⟩ hn hx hxg
  have hxv := ((finds_iff hw hs hdr hn).mp hx).1
  obtain ⟨hdw, hkeep⟩ := hsp d hdr hclear
  exact ⟨⟨d, hdu, hxu⟩, hdr, hxv, hdw, (hkeep x hxv hxg).1, hk⟩

omit hw hs hww hsw hsp hgone in
/-- What is lost with a removable entry. -/
theorem lost_empty {dir : ℕ} {p : Slot} (hin : InDir v dir p) (hsh : Shown (v.entryAt p))
    (hrem : Removable v p) : ∀ r ∈ lost v p, r = p ∧ VisibleAt v dir p ∧ EmptyDir v p := by
  intro r hr
  unfold lost at hr
  split_ifs at hr with hdot
  · exact absurd hr (by simp)
  · exact ⟨by simpa using hr.symm, ⟨hin, hsh.used, hsh.kept, hsh.shown, hdot⟩, hrem.2 hdot⟩

end Spared

section Unlink

variable {v w : Volume} {dir : ℕ} {name : Name} {p : Slot} (hw : Working v) (hv : WellFormed v)
  (hd : Reachable v dir)
include hw hv hd

/-- What a successful unlink does. -/
theorem unlink_drops (hrun : fat16Unlink v dir name = some (true, w)) :
    ∃ p u, Finds v dir name p ∧ Drops v u p ∧ (w = u ∨ w = u.flushFat) := by
  rw [fat16Unlink, if_neg (by simp [hw.mounted])] at hrun
  obtain ⟨r, hr, hrun⟩ := Option.bind_eq_some_iff.mp hrun
  cases r with
  | none => cases hrun
  | some p =>
    have hload := loadEntry_eq hw (finds_inDir hw hv.sound hd hr).1
    simp only [hload] at hrun
    split_ifs at hrun with hprot h2
    · cases hrun
    · obtain ⟨u, hu, hrun⟩ := Option.bind_eq_some_iff.mp hrun
      obtain ⟨-, rfl⟩ := Prod.mk.inj (Option.some.inj hrun)
      obtain ⟨hb, hdisk, hm, hfat⟩ := freeLoop_frees hu
      refine ⟨p, u, hr, ⟨hb, hm, fun x => ?_, hdisk⟩, Or.inr rfl⟩
      rw [hfat, freedWith, if_pos h2, chainFrom_table (updateEntry_fatTable v p _)]
      rfl
    · obtain ⟨-, rfl⟩ := Prod.mk.inj (Option.some.inj hrun)
      refine ⟨p, v.updateEntry p DirEntry.markDeleted, hr, ⟨rfl, rfl, fun x => ?_, rfl⟩,
        Or.inl rfl⟩
      rw [freedWith, if_neg h2, if_neg (by simp)]
      rfl

/-- An unlink leaves the rest alone exactly when what it removes is removable. -/
theorem unlink_confined (hrun : fat16Unlink v dir name = some (true, w)) :
    ∃ p, Finds v dir name p ∧
      (Confined v w (some p) (freedWith v p) Eq ↔ Removable v p) := by
  obtain ⟨p, u, hf, hdrop, hflush⟩ := unlink_drops hw hv hd hrun
  obtain ⟨hin, hsh, hname⟩ := finds_inDir hw hv.sound hd hf
  refine ⟨p, hf, ?_⟩
  have hgrow : Sound u → Grows u w ∧ Working w := by
    intro hsu
    have hwu := drops_working hw hdrop
    rcases hflush with rfl | rfl
    · exact ⟨grows_refl hsu, hwu⟩
    · exact ⟨grows_flush hsu, working_congr hwu rfl rfl (flushFat_size _)⟩
  constructor
  · intro h
    have hfree := confined_freesOwn hw hv.sound (fun c hc => hc) h
    refine ⟨hfree, fun hdot hdir h2 x hx => ?_⟩
    have hp : VisibleAt v dir p := ⟨hin, hsh.used, hsh.kept, hsh.shown, hdot⟩
    have hc : Reachable v (v.entryAt p).cluster := hd.tail ⟨p, hp, hdir, h2, rfl⟩
    obtain ⟨hsu, -, hru, hvu⟩ := drops_spec hw hv.sound hd hin hsh hdrop hfree
    obtain ⟨hg, hww⟩ := hgrow hsu
    obtain ⟨ns, o, hns, ho, hdns, hfo⟩ := visible_path hw hv.sound hd hp
    obtain ⟨hm, hfm⟩ := visible_found hw hv.sound hc hx
    have hxp : x ≠ p := below_other hv.sound hd hp hdir h2 hx
    have hown := steps_own hw hv.sound hns hdns hp
    obtain ⟨⟨e, he, -⟩, -⟩ := h (ns++[o]) _ x (plain_append.mpr ⟨hns, by simpa [Plain] using ho⟩)
      hm (leads_snoc ⟨dir, hdns, hfo⟩ hdir h2 hfm) (by simpa using Ne.symm hxp) _ rfl
    -- the path to `x` still goes through an entry of the old name
    obtain ⟨c, z, hcw, hz, -⟩ := descend_snoc.mp he
    have hdw := confined_descend h (fun _ _ => rfl) hns hdns (by simpa using hown)
    obtain rfl := Option.some.inj (hcw.symm.trans hdw)
    have hrw := descend_reachable hww hg.sound hns hcw
    obtain ⟨hzw, hzn⟩ := (finds_iff hww hg.sound hrw ho).mp hz
    have hrc := (hg.reach c).mp hrw
    have hzu := (hg.visible c z hrc).mp hzw
    obtain ⟨hzv, hzp⟩ := (hvu c z hrc).mp hzu
    rw [(hg.kept c z hrc hzu).entry, drops_entry hw hin hdrop, setAt_ne _ _ hzp] at hzn
    have hpn := ((finds_iff hw hv.sound hd ho).mp hfo).2
    exact hzp (hv.sound.names c z p hd hzv hp (hzn.trans hpn.symm))
  · rintro hrem ns n x hns hn ⟨d, hdns, hx⟩ hxp ns' rfl
    obtain ⟨hsu, hsp, -, -⟩ := drops_spec hw hv.sound hd hin hsh hdrop hrem.1
    obtain ⟨hg, hww⟩ := hgrow hsu
    have hspw : Spares v w (lost v p) := spares_trans hdrop.bpb hsp (grows_spares hg)
    have hlost := lost_empty hin hsh hrem
    have hgone : ∀ r ∈ lost v p, ∃ d, Reachable v d ∧ VisibleAt v d r := fun r hr => by
      obtain ⟨rfl, hp, -⟩ := hlost r hr
      exact ⟨dir, hd, hp⟩
    have hpass := empty_not_passed hw hv.sound hgone (fun r hr => by
      obtain ⟨rfl, -, he⟩ := hlost r hr
      exact he) hns hn hdns hx
    have hxl : x ∉ lost v p := fun hm => by
      obtain ⟨rfl, -⟩ := hlost x hm
      exact hxp rfl
    obtain ⟨hlead, hdr, hxv, -, -, hk⟩ := spared_path hw hv.sound hww hg.sound hspw hgone
      (fun _ _ _ _ _ _ _ h => ⟨h, rfl⟩) hns hn hdns hx hxl hpass
    refine ⟨hlead, hk.entry, fun hfile => ?_, ?_⟩
    · exact readEntry_kept (hg.bpb.trans hdrop.bpb) hw hww hv.sound hdr hxv hk hfile
    · exact clusters_stay hw hv.sound hd hf hrem.1 hdr hxv (fun hh => hxp (by simp [hh]))

end Unlink

end Vlsmc.PathOperations
