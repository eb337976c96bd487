import Vlsmc.Vfs
import Vlsmc.Fat16RoundTrip

/-!
# Protection attributes

`FAT_ATTR_PROTECT_MODIFY` (+gc) is looked at only by `write_file_in_dir`, and
`FAT_ATTR_PROTECT_DELETE` (+gd) only by `fat16_unlink`; both look at the entry that is named
and at nothing below it. A file that no call overwrites, deletes or uproots stays, with its
attributes and its contents, where it is or where it is moved.
-/

set_option autoImplicit false

namespace Vlsmc.FileProtection
open Vlsmc.Fat16Layout Vlsmc.Fat16Names Vlsmc.Fat16Volume Vlsmc.Fat16Files
open Vlsmc.Fat16Geometry Vlsmc.Fat16Chains Vlsmc.Fat16Directory Vlsmc.Fat16Soundness
open Vlsmc.Fat16Updates Vlsmc.Fat16Growth Vlsmc.Fat16Effects Vlsmc.Fat16Operations Vlsmc.Fat16Namespace Vlsmc.Fat16RoundTrip
open Vlsmc.Fat16Runs Vlsmc.Vfs
open Relation

/-- A directory and a slot in it. -/
abbrev Place := ℕ × Slot

structure FileAt (v : Volume) (x : Place) : Prop where
  reachable : Reachable v x.1
  visible : VisibleAt v x.1 x.2
  file : ¬ (v.entryAt x.2).isDirectory

def ProtectedDelete (v : Volume) (x : Place) : Prop :=
  (v.entryAt x.2).attributes &&& attrProtectDelete ≠ 0

def ProtectedModify (v : Volume) (x : Place) : Prop :=
  (v.entryAt x.2).attributes &&& attrProtectModify ≠ 0

/-- The entry that a call in directory `dir` finds under the name. -/
def Named (v : Volume) (dir : ℕ) (name : List UInt8) (p : Slot) : Prop :=
  VisibleAt v dir p ∧ entryName (v.entryAt p) = name.map upper

/-- The call writes over the entry, which has no +gc. -/
def Overwrites (v : Volume) : Call → Slot → Prop
  | .writeFileInDir dir name _ _, p =>
    Named v dir name p ∧ (v.entryAt p).attributes &&& attrProtectModify = 0
  | _, _ => False

/-- The call unlinks the entry, which has no +gd. -/
def Deletes (v : Volume) : Call → Slot → Prop
  | .fat16Unlink dir name, p =>
    Named v dir name p ∧ (v.entryAt p).attributes &&& attrProtectDelete = 0
  | _, _ => False

/-- The call moves a directory into itself or below itself. -/
def Swallows (v : Volume) : Call → Slot → Prop
  | .fat16Rename oldDir oldName newDir newName, p =>
    Named v oldDir oldName p ∧ (∀ q, ¬ Named v newDir newName q) ∧
      Below v (v.entryAt p).cluster newDir
  | _, _ => False

/-- The call takes a directory away that `d` lies below. -/
def Uproots (v : Volume) (c : Call) (d : ℕ) : Prop :=
  ∃ q, (v.entryAt q).isDirectory ∧ 2 ≤ (v.entryAt q).cluster ∧ Below v (v.entryAt q).cluster d ∧
    (Overwrites v c q ∨ Deletes v c q ∨ Swallows v c q)

/-- Where the file is after the call: where it was, or where it was renamed to. -/
def Follows (v : Volume) (c : Call) (w : Volume) (x y : Place) : Prop :=
  (y = x ∧ entryName (w.entryAt x.2) = entryName (v.entryAt x.2)) ∨
  ∃ oldName newName, c = .fat16Rename x.1 oldName y.1 newName ∧ Named v x.1 oldName x.2 ∧
    Named w y.1 newName y.2

/-- The same attributes and contents. -/
structure SameFile (v w : Volume) (x y : Place) : Prop where
  attributes : (w.entryAt y.2).attributes = (v.entryAt x.2).attributes
  contents : ∀ offset n,
    readEntry w (w.entryAt y.2) offset n = readEntry v (v.entryAt x.2) offset n

section Refused

variable {v : Volume} {dir : ℕ} {name : List UInt8} {p : Slot} (hw : Working v) (hs : Sound v)
  (hd : Reachable v dir) (hn : NotDots name) (hp : Named v dir name p)
include hw hs hd hn hp

theorem found_named : v.findDirEntry dir name = some (some p) ∧ v.loadEntry p = v.entryAt p :=
  ⟨(lookup_read hw hs hd hp.1 hp.2 hn).1, loadEntry_eq hw hp.1.1⟩

theorem write_refused (h : (v.entryAt p).attributes &&& attrProtectModify ≠ 0)
    (data : List UInt8) (now : Stamp) :
    writeFileInDir v dir name data now = some (false, v) := by
  obtain ⟨hfind, hload⟩ := found_named hw hs hd hn hp
  have hdrop : dropOld v dir name = some none := by simp [dropOld, hfind, hload, h]
  simp [writeFileInDir, hw.mounted, hdrop]

theorem unlink_refused (h : (v.entryAt p).attributes &&& attrProtectDelete ≠ 0) :
    fat16Unlink v dir name = some (false, v) := by
  obtain ⟨hfind, hload⟩ := found_named hw hs hd hn hp
  simp [fat16Unlink, hw.mounted, hfind, hload, h]

end Refused

section Spared

variable {v w : Volume} {x : Place}

theorem sameFile_refl (v : Volume) (x : Place) : SameFile v v x x := ⟨rfl, fun _ _ => rfl⟩

theorem follows_refl (v : Volume) (c : Call) (x : Place) : Follows v c v x x := Or.inl ⟨rfl, rfl⟩

theorem kept_file (hw : Working v) (hww : Working w) (hs : Sound v) (hb : w.bpb = v.bpb)
    (hx : FileAt v x) (hr : Reachable w x.1) (hp : VisibleAt w x.1 x.2) (hk : Kept v w x.2)
    (c : Call) : FileAt w x ∧ SameFile v w x x ∧ Follows v c w x x := by
  refine ⟨⟨hr, hp, by rw [hk.entry]; exact hx.file⟩, ⟨by rw [hk.entry], ?_⟩,
    Or.inl ⟨rfl, by rw [hk.entry]⟩⟩
  exact readEntry_kept hb hw hww hs hx.reachable hx.visible hk hx.file

/-- A file that an operation spares. -/
theorem spared_file {gone : Option Slot} (hw : Working v) (hww : Working w) (hs : Sound v)
    (hb : w.bpb = v.bpb) (hsp : Spares v w gone) (hx : FileAt v x) (hclear : Clear v gone x.1)
    (hg : x.2 ∉ gone) (c : Call) : FileAt w x ∧ SameFile v w x x ∧ Follows v c w x x := by
  obtain ⟨hr, hrest⟩ := hsp x.1 hx.reachable hclear
  obtain ⟨hp, hk⟩ := hrest x.2 hx.visible hg
  exact kept_file hw hww hs hb hx hr hp hk c

end Spared

section Moved

variable {u x : Volume} {d d' : ℕ} {old new : Slot} {e : DirEntry}

/-- Below a moved directory everything is as before. -/
theorem moves_below (hm : Moves u x d' old new e) (hs : Sound u) (hd : Reachable u d)
    (hold : VisibleAt u d old) (hdir : (u.entryAt old).isDirectory)
    (h2 : 2 ≤ (u.entryAt old).cluster) {a : ℕ} (ha : Below u (u.entryAt old).cluster a) :
    Below x (u.entryAt old).cluster a := by
  have hr : Reachable u (u.entryAt old).cluster := hd.tail ⟨old, hold, hdir, h2, rfl⟩
  induction ha with
  | refl => exact .refl
  | @tail b c hb hbc ih =>
    obtain ⟨q, hq, hqd, hq2, hqc⟩ := hbc
    -- The moved entry is in `d`, which does not lie below its own entry.
    have hne : q ≠ old := by
      rintro rfl
      obtain rfl := inDir_unique hs (hr.trans hb) hd hq.1 hold.1
      exact own_clear hs hd hold q rfl hdir h2 hb
    obtain ⟨hqx, he⟩ := hm.visible b q hq hne
    exact ih.tail ⟨q, hqx, by rw [he]; exact ⟨hqd, hq2, hqc⟩⟩

/-- Directories stay reachable unless the moved one goes below itself. -/
theorem moves_reachable (hm : Moves u x d' old new e) (hs : Sound u) (hd : Reachable u d)
    (hold : VisibleAt u d old) (hd' : Reachable u d')
    (hec : e.cluster = (u.entryAt old).cluster)
    (hed : (u.entryAt old).isDirectory → e.isDirectory)
    (hout : (u.entryAt old).isDirectory → 2 ≤ (u.entryAt old).cluster →
      ¬ Below u (u.entryAt old).cluster d') {a : ℕ} (ha : Reachable u a) : Reachable x a := by
  have hclear' : Clear u (some old) d' := by
    rintro q ⟨rfl⟩ hdir h2
    exact hout hdir h2
  by_cases hclear : Clear u (some old) a
  · exact (hm.spares a ha hclear).1
  · simp only [Clear, Option.mem_def, Option.some.injEq, forall_eq', not_forall, not_not] at hclear
    obtain ⟨hdir, h2, hbelow⟩ := hclear
    have hr := (hm.spares d' hd' hclear').1
    have hchild : Child x d' (u.entryAt old).cluster :=
      ⟨new, hm.moved.1, by rw [hm.moved.2]; exact hed hdir, h2, by rw [hm.moved.2, hec]⟩
    exact (hr.tail hchild).trans (moves_below hm hs hd hold hdir h2 hbelow)

theorem moves_kept (hm : Moves u x d' old new e) {a : ℕ} {p : Slot} (ha : Reachable u a)
    (hp : VisibleAt u a p) (hne : p ≠ old) : Kept u x p :=
  ⟨(hm.visible a p hp hne).2, fun hfile l hl =>
    ⟨(hm.chain _ l).mpr hl, hm.data a p l ha hp hfile hl⟩⟩

theorem readEntry_entry {v : Volume} {e e' : DirEntry} (hs : e'.fileSize = e.fileSize)
    (hc : e'.cluster = e.cluster) (offset n : ℕ) :
    readEntry v e' offset n = readEntry v e offset n := by
  unfold readEntry
  rw [hs, hc]

theorem grows_below {v u : Volume} (hg : Grows v u) {a b : ℕ} (ha : Reachable v a)
    (h : Below u a b) : Below v a b := by
  induction h with
  | refl => exact .refl
  | @tail b c hb hbc ih =>
    obtain ⟨q, hq, hdir, h2, hc⟩ := hbc
    have hrb : Reachable v b := ha.trans ih
    have hqv := (hg.visible b q hrb).mp hq
    have he := (hg.kept b q hrb hqv).entry
    rw [he] at hdir hc
    exact ih.tail ⟨q, hqv, hdir, h2, hc⟩

/-- A file that another entry's move leaves where it is. -/
theorem moved_other {v u x w : Volume} (hw : Working v) (hww : Working w) (hs : Sound v)
    (hg : Grows v u) (hm : Moves u x d' old new e) (hgw : Grows x w) {y : Place}
    (hy : FileAt v y) (hr : Reachable x y.1) (hne : y.2 ≠ old) (c : Call) :
    FileAt w y ∧ SameFile v w y y ∧ Follows v c w y y := by
  have hru := (hg.reach y.1).mpr hy.reachable
  have hpu := (hg.visible y.1 y.2 hy.reachable).mpr hy.visible
  have hpx := (hm.visible y.1 y.2 hpu hne).1
  have hb : x.bpb = v.bpb := hm.bpb.trans hg.bpb
  have hkept : Kept v w y.2 := kept_trans hb
    (kept_trans hg.bpb (hg.kept y.1 y.2 hy.reachable hy.visible) (moves_kept hm hru hpu hne))
    (hgw.kept y.1 y.2 hr hpx)
  exact kept_file hw hww hs (hgw.bpb.trans hb) hy ((hgw.reach y.1).mpr hr)
    ((hgw.visible y.1 y.2 hr).mpr hpx) hkept c

/-- The moved file itself. -/
theorem moved_file {v u x w : Volume} {newName : List UInt8} (hw : Working v) (hww : Working w)
    (hs : Sound v) (hg : Grows v u)
    (hm : Moves u x d' old new (format83Name newName (v.entryAt old))) (hgw : Grows x w)
    (hy : FileAt v (d, old)) (hr : Reachable x d') :
    FileAt w (d', new) ∧ SameFile v w (d, old) (d', new) ∧
      entryName (w.entryAt new) = entryName (format83Name newName (v.entryAt old)) := by
  have hru : Reachable u d := (hg.reach d).mpr hy.reachable
  have hpu : VisibleAt u d old := (hg.visible d old hy.reachable).mpr hy.visible
  have hku : Kept v u old := hg.kept d old hy.reachable hy.visible
  have hkw := hgw.kept d' new hr hm.moved.1
  have hent : w.entryAt new = format83Name newName (v.entryAt old) := hkw.entry.trans hm.moved.2
  have hb : x.bpb = v.bpb := hm.bpb.trans hg.bpb
  have hfu : ¬ (u.entryAt old).isDirectory := by
    rw [hku.entry]
    exact hy.file
  have hfx : ¬ (x.entryAt new).isDirectory := by
    rw [hm.moved.2]
    exact hy.file
  have hcx : (x.entryAt new).cluster = (v.entryAt old).cluster := by rw [hm.moved.2]; rfl
  have hdata : ∀ l, FatChain v (v.entryAt old).cluster l →
      FatChain w (v.entryAt old).cluster l ∧ SameData v w l := by
    intro l hl
    obtain ⟨h1, s1⟩ := hku.chain hy.file l hl
    have h2 : FatChain x (v.entryAt old).cluster l := (hm.chain _ l).mpr h1
    have s2 := hm.data d old l hru hpu hfu (by rwa [hku.entry])
    obtain ⟨h3, s3⟩ := hkw.chain hfx l (by rwa [hcx])
    rw [hcx] at h3
    exact ⟨h3, sameData_trans hb (sameData_trans hg.bpb s1 s2) s3⟩
  refine ⟨⟨(hgw.reach d').mpr hr, (hgw.visible d' new hr).mpr hm.moved.1, ?_⟩,
    ⟨by rw [hent]; rfl, fun offset n => ?_⟩, by rw [hent]⟩
  · rw [hkw.entry]
    exact hfx
  · rw [hent, readEntry_entry rfl rfl]
    exact readEntry_data (hgw.bpb.trans hb) hw hww (hs.chains d old hy.reachable hy.visible)
      hdata offset n

end Moved

section Step

variable {v : Volume} {x : Place}

/-- A rename that succeeds keeps every file, unless a directory goes below itself. -/
theorem rename_keeps {u z w : Volume} {oldDir newDir : ℕ} {oldName newName : List UInt8}
    {old new : Slot} (hw : Working v) (hs : Sound v) (hww : Working w)
    (hc : (Call.fat16Rename oldDir oldName newDir newName).Allowed v) (hx : FileAt v x)
    (hup : ¬ Uproots v (.fat16Rename oldDir oldName newDir newName) x.1) (hg : Grows v u)
    (hold : Named v oldDir oldName old) (habs : ∀ p, ¬ Named v newDir newName p)
    (hm : Moves u z newDir old new (format83Name newName (v.entryAt old))) (hgw : Grows z w) :
    ∃ y, FileAt w y ∧ SameFile v w x y ∧
      Follows v (.fat16Rename oldDir oldName newDir newName) w x y := by
  obtain ⟨hod, -, hnd, hnn⟩ := hc
  have hoe : u.entryAt old = v.entryAt old := (hg.kept oldDir old hod hold.1).entry
  have hou : VisibleAt u oldDir old := (hg.visible oldDir old hod).mpr hold.1
  have hodu := (hg.reach oldDir).mpr hod
  have hndu := (hg.reach newDir).mpr hnd
  have hru := (hg.reach x.1).mpr hx.reachable
  by_cases hslot : x.2 = old
  · obtain ⟨d, p⟩ := x
    obtain rfl : p = old := hslot
    obtain rfl : d = oldDir := inDir_unique hs hx.reachable hod hx.visible.1 hold.1.1
    have hclear : Clear u (some p) newDir := by
      rintro q ⟨rfl⟩ hdir
      exact absurd (hoe ▸ hdir) hx.file
    obtain ⟨hf, hsf, hname⟩ :=
      moved_file hw hww hs hg hm hgw hx (hm.spares newDir hndu hclear).1
    exact ⟨(newDir, new), hf, hsf, Or.inr ⟨oldName, newName, rfl, hold, hf.visible,
      hname.trans (entryName_format83 newName hnn _)⟩⟩
  · refine ⟨x, moved_other hw hww hs hg hm hgw hx ?_ hslot _⟩
    -- Either the moved directory stays out of itself, or `x` does not lie below it.
    by_cases hbelow : (v.entryAt old).isDirectory ∧ 2 ≤ (v.entryAt old).cluster ∧
        Below v (v.entryAt old).cluster x.1
    · obtain ⟨hdir, h2, hb⟩ := hbelow
      refine moves_reachable hm hg.sound hodu hou hndu (by rw [hoe]; rfl)
        (by rw [hoe]; exact id) (fun _ _ hin => hup ⟨old, hdir, h2, hb, ?_⟩) hru
      rw [hoe] at hin
      exact Or.inr (Or.inr ⟨hold, habs,
        grows_below hg (hod.tail ⟨old, hold.1, hdir, h2, rfl⟩) hin⟩)
    · refine (hm.spares x.1 hru ?_).1
      rintro q ⟨rfl⟩ hdir h2 hb
      rw [hoe] at hdir h2 hb
      exact hbelow ⟨hdir, h2, grows_below hg (hod.tail ⟨old, hold.1, hdir, h2, rfl⟩) hb⟩

/-- One call of the driver keeps every file that it does not take away. -/
theorem step_keeps (c : Call) (hw : Working v) (hv : WellFormed v) (hc : c.Allowed v)
    (hx : FileAt v x) (ho : ¬ Overwrites v c x.2) (hdel : ¬ Deletes v c x.2)
    (hup : ¬ Uproots v c x.1) {ok : Bool} {w : Volume} (hrun : c.run v = some (ok, w)) :
    ∃ y, FileAt w y ∧ SameFile v w x y ∧ Follows v c w x y := by
  have hsame : w = v → ∃ y, FileAt w y ∧ SameFile v w x y ∧ Follows v c w x y := by
    rintro rfl
    exact ⟨x, hx, sameFile_refl w x, follows_refl w c x⟩
  cases c with
  | writeFileInDir dir name data now =>
    obtain ⟨ok', w', hr, hww, hwf, hb, ⟨gone, hsp, hgone, -⟩, -⟩ :=
      writeFileInDir_spec hw hv hc.1 (validName_fits hc.2 v dir) data now
    obtain ⟨rfl, rfl⟩ : ok = ok' ∧ w = w' := by simpa using hrun.symm.trans hr
    by_cases href : ∃ p, Named v dir name p ∧ (v.entryAt p).attributes &&& attrProtectModify ≠ 0
    · obtain ⟨p, hp, hpm⟩ := href
      have heq := write_refused hw hv.sound hc.1 (validName_notDots hc.2) hp hpm data now
      exact hsame (congrArg Prod.snd (Option.some.inj (hr.symm.trans heq)))
    · have hover : ∀ p ∈ gone, Overwrites v (.writeFileInDir dir name data now) p := fun p hp =>
        ⟨hgone p hp, by by_contra h; exact href ⟨p, hgone p hp, h⟩⟩
      refine ⟨x, spared_file hw hww hv.sound hb hsp hx ?_ (fun h => ho (hover _ h)) _⟩
      exact fun p hp hdir h2 hbelow => hup ⟨p, hdir, h2, hbelow, Or.inl (hover p hp)⟩
  | fat16Unlink dir name =>
    obtain ⟨ok', w', hr, hww, hwf, hb, gone, hsp, hgone, -⟩ :=
      fat16Unlink_spec hw hv.sound hc.1 (validName_notDots hc.2) hv.flushed
    obtain ⟨rfl, rfl⟩ : ok = ok' ∧ w = w' := by simpa using hrun.symm.trans hr
    by_cases href : ∃ p, Named v dir name p ∧ (v.entryAt p).attributes &&& attrProtectDelete ≠ 0
    · obtain ⟨p, hp, hpm⟩ := href
      have heq := unlink_refused hw hv.sound hc.1 (validName_notDots hc.2) hp hpm
      exact hsame (congrArg Prod.snd (Option.some.inj (hr.symm.trans heq)))
    · have hdels : ∀ p ∈ gone, Deletes v (.fat16Unlink dir name) p := fun p hp =>
        ⟨hgone p hp, by by_contra h; exact href ⟨p, hgone p hp, h⟩⟩
      refine ⟨x, spared_file hw hww hv.sound hb hsp hx ?_ (fun h => hdel (hdels _ h)) _⟩
      exact fun p hp hdir h2 hbelow =>
        hup ⟨p, hdir, h2, hbelow, Or.inr (Or.inl (hdels p hp))⟩
  | fat16Mkdir dir name now =>
    obtain ⟨ok', w', hr, hww, hwf, hb, hsp⟩ :=
      fat16Mkdir_spec hw hv hc.1 (validName_fits hc.2 v dir) now
    obtain ⟨rfl, rfl⟩ : ok = ok' ∧ w = w' := by simpa using hrun.symm.trans hr
    exact ⟨x, spared_file hw hww hv.sound hb hsp hx (clear_none v _) (by simp) _⟩
  | fat16Rename oldDir oldName newDir newName =>
    obtain ⟨ok', w', hr, hww, hwf, hfail, hok⟩ := fat16Rename_spec hw hv hc.1 hc.2.2.1
      (validName_notDots hc.2.1) (validName_fits hc.2.2.2 v newDir)
    obtain ⟨rfl, rfl⟩ : ok = ok' ∧ w = w' := by simpa using hrun.symm.trans hr
    cases ok with
    | false =>
      have hg := hfail rfl
      exact ⟨x, spared_file hw hww hv.sound hg.bpb (grows_spares hg) hx (clear_none v _)
        (by simp) _⟩
    | true =>
      obtain ⟨u, z, old, new, hg, hold, hname, habs, hm, hgw⟩ := hok rfl
      exact rename_keeps hw hv.sound hww hc hx hup hg ⟨hold, hname⟩
        (fun p hp => habs p hp.1 hp.2) hm hgw

end Step

section Sessions

/-- The volume goes from `v` to `w` by the calls that were written down. -/
def Chained : Volume → List (Volume × Call) → Volume → Prop
  | v, [], w => v = w
  | v, (u, c)::log, w => u = v ∧ ∃ ok t, c.run v = some (ok, t) ∧ Chained t log w

theorem chained_append {v u w : Volume} {log log' : List (Volume × Call)}
    (h : Chained v log u) (h' : Chained u log' w) : Chained v (log++log') w := by
  induction log generalizing v with
  | nil => exact h ▸ h'
  | cons a log ih =>
    obtain ⟨rfl, ok, t, hr, ht⟩ := h
    exact ⟨rfl, ok, t, hr, ih ht⟩

/-- The calls of the driver that lead from one session to another. -/
def Extends (s t : Session) : Prop :=
  ∃ log, t.issued = s.issued++log ∧ Chained s.volume log t.volume

theorem extends_refl (s : Session) : Extends s s := ⟨[], by simp, rfl⟩

theorem extends_returned {α : Type} {s u t : Session} {a b : α} (hu : Extends s u)
    (h : some (a, u) = some (b, t)) : Extends s t := by
  obtain ⟨-, rfl⟩ := Prod.mk.inj (Option.some.inj h)
  exact hu

theorem extends_trans {s t r : Session} (h : Extends s t) (h' : Extends t r) : Extends s r := by
  obtain ⟨log, hi, hc⟩ := h
  obtain ⟨log', hi', hc'⟩ := h'
  exact ⟨log++log', by rw [hi', hi, List.append_assoc], chained_append hc hc'⟩

theorem driver_extends {s t : Session} {c : Call} {ok : Bool} (h : s.driver c = some (ok, t)) :
    Extends s t := by
  obtain ⟨⟨r, w⟩, hr, heq⟩ := Option.map_eq_some_iff.mp h
  obtain ⟨rfl, rfl⟩ := Prod.mk.inj heq
  exact ⟨[(s.volume, c)], rfl, rfl, r, w, hr, rfl⟩

theorem vnodeWrite_extends {s t : Session} {vn : Vnode} {data : List UInt8} {now : Stamp}
    {ok : Bool} (h : vnodeWrite s vn data now = some (ok, t)) : Extends s t := by
  rw [vnodeWrite] at h
  split at h
  · exact extends_returned (extends_refl s) h
  · exact driver_extends h

theorem vnodeCreate_extends {s t : Session} {createOk : Bool} {dir : ℕ} {name : List UInt8}
    {now : Stamp} {r : Option Vnode} (h : vnodeCreate createOk s dir name now = some (r, t)) :
    Extends s t := by
  simp only [vnodeCreate, Option.bind_eq_bind, Option.bind_eq_some_iff] at h
  obtain ⟨⟨ok, u⟩, hd, h⟩ := h
  cases ok with
  | false => exact extends_returned (driver_extends hd) h
  | true =>
    obtain ⟨vn, -, h⟩ := Option.bind_eq_some_iff.mp h
    exact extends_returned (driver_extends hd) h

theorem vfsOpen_extends {s t : Session} {heap : ℕ → Bool} {createOk creat : Bool}
    {path : List UInt8} {now : Stamp} {r : Option Vnode}
    (h : vfsOpen heap createOk s path creat now = some (r, t)) : Extends s t := by
  simp only [vfsOpen, Option.bind_eq_bind] at h
  obtain ⟨found, -, h⟩ := Option.bind_eq_some_iff.mp h
  cases found with
  | some vn => exact extends_returned (extends_refl s) h
  | none =>
    dsimp only at h
    by_cases hc : creat = true
    · rw [if_pos hc] at h
      obtain ⟨⟨vn, u⟩, hu, h⟩ := Option.bind_eq_some_iff.mp h
      have hsu := vnodeCreate_extends hu
      cases vn with
      | none => exact extends_returned hsu h
      | some vn => exact extends_returned hsu h
    · rw [if_neg hc] at h
      exact extends_returned (extends_refl s) h

/-- The calls that resolve the parent directory and then make one call of the driver. -/
theorem parentCall_extends {s t : Session} {path : List UInt8} {ok : Bool}
    {found : Option (Option Vnode)} {call : Vnode → Call}
    (h : (if path = [slash] then some (false, s) else found.bind fun r =>
      match r with
      | none => some (false, s)
      | some parent => s.driver (call parent)) = some (ok, t)) : Extends s t := by
  split_ifs at h
  · exact extends_returned (extends_refl s) h
  · obtain ⟨r, -, h⟩ := Option.bind_eq_some_iff.mp h
    cases r with
    | none => exact extends_returned (extends_refl s) h
    | some parent => exact driver_extends h

theorem vfsRename_extends {s t : Session} {heap heap' : ℕ → Bool} {oldpath newpath : List UInt8}
    {ok : Bool} (h : vfsRename heap heap' s oldpath newpath = some (ok, t)) : Extends s t := by
  simp only [vfsRename, Option.bind_eq_bind] at h
  split_ifs at h
  · exact extends_returned (extends_refl s) h
  · obtain ⟨r, -, h⟩ := Option.bind_eq_some_iff.mp h
    cases r with
    | none => exact extends_returned (extends_refl s) h
    | some oldParent =>
      obtain ⟨r, -, h⟩ := Option.bind_eq_some_iff.mp h
      cases r with
      | none => exact extends_returned (extends_refl s) h
      | some newParent => exact driver_extends h

theorem vfsWriteFile_extends {s t : Session} {heap : ℕ → Bool} {lookupOk createOk : Bool}
    {path data : List UInt8} {now : Stamp} {ok : Bool}
    (h : vfsWriteFile heap lookupOk createOk s path data now = some (ok, t)) : Extends s t := by
  simp only [vfsWriteFile, Option.bind_eq_bind] at h
  obtain ⟨r, -, h⟩ := Option.bind_eq_some_iff.mp h
  cases r with
  | none => exact extends_returned (extends_refl s) h
  | some parent =>
    obtain ⟨r, -, h⟩ := Option.bind_eq_some_iff.mp h
    cases r with
    | some vn => exact vnodeWrite_extends h
    | none =>
      obtain ⟨⟨vn, u⟩, hu, h⟩ := Option.bind_eq_some_iff.mp h
      have hsu := vnodeCreate_extends hu
      cases vn with
      | none => exact extends_returned hsu h
      | some vn => exact extends_trans hsu (vnodeWrite_extends h)

theorem call_extends {c : VfsCall} {s t : Session} (h : c.run s = some t) : Extends s t := by
  cases c <;> obtain ⟨⟨r, u⟩, hr, rfl⟩ := Option.map_eq_some_iff.mp h
  case writeFile => exact vfsWriteFile_extends hr
  case openFile => exact vfsOpen_extends hr
  case fwrite => exact vnodeWrite_extends hr
  case unlink => exact parentCall_extends hr
  case rename => exact vfsRename_extends hr
  case mkdir => exact parentCall_extends hr

theorem runCalls_extends {cs : List VfsCall} {s t : Session} (h : runCalls cs s = some t) :
    Extends s t := by
  induction cs generalizing s with
  | nil => exact Option.some.inj h ▸ extends_refl s
  | cons c cs ih =>
    obtain ⟨u, hu, h⟩ := Option.bind_eq_some_iff.mp h
    exact extends_trans (call_extends hu) (ih h)

end Sessions

section Runs

/-- The file is as it should be before every call and at the end, or up to the call that
ends it. -/
def Persists (good : Volume → Place → Prop) (ends : Volume → Call → Place → Prop) :
    List (Volume × Call) → Volume → Place → Prop
  | [], w, x => good w x
  | (u, c)::log, w, x => good u x ∧ (ends u c x ∨
    ∃ ok t y, c.run u = some (ok, t) ∧ Follows u c t x y ∧ Persists good ends log w y)

/-- The call unlinks the file or takes a directory away that it lies below. -/
def Removes (v : Volume) (c : Call) (x : Place) : Prop := Deletes v c x.2 ∨ Uproots v c x.1

theorem persists_run {good : Volume → Place → Prop} {ends : Volume → Call → Place → Prop}
    (log : List (Volume × Call)) {v w : Volume} (hlog : Chained v log w) (hw : Working v)
    (hv : WellFormed v) (hallow : ∀ uc ∈ log, uc.2.Allowed uc.1)
    (hstep : ∀ uc ∈ log, Working uc.1 → WellFormed uc.1 → ∀ x, good uc.1 x →
      ¬ ends uc.1 uc.2 x → ∀ ok t, uc.2.run uc.1 = some (ok, t) →
        ∃ y, good t y ∧ Follows uc.1 uc.2 t x y) {x : Place} (hx : good v x) :
    Persists good ends log w x := by
  induction log generalizing v x with
  | nil => exact hlog ▸ hx
  | cons uc log ih =>
    obtain ⟨u, c⟩ := uc
    obtain ⟨rfl, ok, t, hr, hlog⟩ := hlog
    refine ⟨hx, ?_⟩
    by_cases hends : ends u c x
    · exact Or.inl hends
    · obtain ⟨y, hy, hf⟩ := hstep (u, c) (by simp) hw hv x hx hends ok t hr
      obtain ⟨ok', t', hr', hwt, hvt⟩ := run_spec c u hw hv (hallow (u, c) (by simp))
      obtain ⟨-, rfl⟩ : ok = ok' ∧ t = t' := by simpa using hr.symm.trans hr'
      exact Or.inr ⟨ok, t, y, hr, hf, ih hlog hwt hvt
        (fun uc huc => hallow uc (List.mem_cons_of_mem _ huc))
        (fun uc huc => hstep uc (List.mem_cons_of_mem _ huc)) hy⟩

theorem modify_not_overwritten {v : Volume} {c : Call} {x : Place} (h : ProtectedModify v x) :
    ¬ Overwrites v c x.2 := by
  cases c with
  | writeFileInDir => exact fun ho => h ho.2
  | _ => exact id

theorem delete_not_deleted {v : Volume} {c : Call} {x : Place} (h : ProtectedDelete v x) :
    ¬ Deletes v c x.2 := by
  cases c with
  | fat16Unlink => exact fun hd => h hd.2
  | _ => exact id

/-- Over every run of calls in which the driver is called on reachable directories with valid
names, and never overwrites a +gd file or takes away a directory above one: a +gd file stays,
with its flag, under its name or the one it is renamed to, and a +gc file has its flag and its
contents until it is unlinked or a directory above it goes. -/
theorem protection_respected (calls : List VfsCall) (v : Volume) (hw : Working v)
    (hv : WellFormed v) (t : Session) (hrun : runCalls calls ⟨v, []⟩ = some t)
    (hcalls : ∀ uc ∈ t.issued, uc.2.Allowed uc.1 ∧ ∀ x, FileAt uc.1 x → ProtectedDelete uc.1 x →
      ¬ Overwrites uc.1 uc.2 x.2 ∧ ¬ Uproots uc.1 uc.2 x.1)
    (x : Place) (hx : FileAt v x) :
    (ProtectedDelete v x → Persists (fun w y => FileAt w y ∧ ProtectedDelete w y)
      (fun _ _ _ => False) t.issued t.volume x) ∧
    (ProtectedModify v x → Persists (fun w y => FileAt w y ∧ ProtectedModify w y ∧
        ∀ offset n, readEntry w (w.entryAt y.2) offset n = readEntry v (v.entryAt x.2) offset n)
      Removes t.issued t.volume x) := by
  obtain ⟨log, hlog, hchain⟩ := runCalls_extends hrun
  obtain rfl : t.issued = log := by simpa using hlog
  have hallow : ∀ uc ∈ t.issued, uc.2.Allowed uc.1 := fun uc huc => (hcalls uc huc).1
  constructor
  · intro hp
    refine persists_run t.issued hchain hw hv hallow ?_ ⟨hx, hp⟩
    rintro ⟨u, c⟩ huc hwu hvu y ⟨hy, hpy⟩ - ok w hr
    obtain ⟨ho, hup⟩ := (hcalls (u, c) huc).2 y hy hpy
    obtain ⟨z, hz, hsame, hf⟩ := step_keeps c hwu hvu (hallow _ huc) hy ho
      (delete_not_deleted hpy) hup hr
    exact ⟨z, ⟨hz, by rw [ProtectedDelete, hsame.attributes]; exact hpy⟩, hf⟩
  · intro hp
    refine persists_run t.issued hchain hw hv hallow ?_ ⟨hx, hp, fun _ _ => rfl⟩
    rintro ⟨u, c⟩ huc hwu hvu y ⟨hy, hpy, hread⟩ hends ok w hr
    obtain ⟨z, hz, hsame, hf⟩ := step_keeps c hwu hvu (hallow _ huc) hy
      (modify_not_overwritten hpy) (fun h => hends (Or.inl h)) (fun h => hends (Or.inr h)) hr
    exact ⟨z, ⟨hz, by rw [ProtectedModify, hsame.attributes]; exact hpy,
      fun offset n => (hsame.contents offset n).trans (hread offset n)⟩, hf⟩

/-- The file `A`, empty and with +gd. -/
def guardedEntry : DirEntry where
  name := padded 8 [0x41]
  ext := padded 3 []
  attributes := attrProtectDelete ||| attrArchive
  reserved := fun _ => 0
  time := 0
  date := 0
  firstCluster := 0
  fileSize := 0

def guarded : Volume := blank.updateEntry (2, 0) fun _ => guardedEntry

theorem guarded_visible : Visible guardedEntry :=
  ⟨by decide, by decide, by decide, by decide⟩

theorem guarded_spec : Sound guarded ∧ VisibleAt guarded 0 (2, 0) ∧
    ∀ p, guarded.entryAt p = setAt blank.entryAt (2, 0) guardedEntry p := by
  have hent : ∀ p, guarded.entryAt p = setAt blank.entryAt (2, 0) guardedEntry p := fun p =>
    updateEntry_entryAt blank (2, 0) (fun _ => guardedEntry) (by decide) p
  have hfree : FreeSlot blank 0 (2, 0) := ⟨.refl, Or.inl (blank_entry _),
    [2], [], (List.range' 1 15).map fun i => (2, i), Or.inl ⟨rfl, rfl⟩, rfl, by simp⟩
  obtain ⟨hs, -, hv, -, -⟩ := insert_spec (w := guarded) blank_wellFormed.sound hfree guarded_visible
    (fun p hp => absurd hp (blank_not_visible 0 p)) rfl (fun _ => rfl)
    (fun lba h => updateEntry_other blank (2, 0) _ lba h) hent
    (fun h => absurd h (by decide)) (fun h => absurd h (by decide))
  exact ⟨hs, hv, hent⟩

theorem guarded_working : Working guarded := ⟨rfl, by decide, by decide⟩

theorem guarded_wellFormed : WellFormed guarded :=
  ⟨guarded_spec.1, updateEntry_flushed blank_wellFormed.flushed guarded_spec.2.1.1 _⟩

theorem guarded_file : FileAt guarded (0, 2, 0) ∧ ProtectedDelete guarded (0, 2, 0) := by
  have hent : guarded.entryAt (2, 0) = guardedEntry := by
    rw [guarded_spec.2.2, setAt_same]
  exact ⟨⟨.refl, guarded_spec.2.1, by rw [hent]; decide⟩, by rw [ProtectedDelete, hent]; decide⟩

theorem guarded_only {d : ℕ} {p : Slot} (h : VisibleAt guarded d p) :
    ¬ (guarded.entryAt p).isDirectory := by
  have hent := guarded_spec.2.2 p
  by_cases hp : p = (2, 0)
  · rw [hent, hp, setAt_same]
    decide
  · rw [setAt_ne _ _ hp] at hent
    exact absurd (hent ▸ blank_entry p) h.2.used

/-- An attempt to unlink the file. -/
theorem protection_respected_unlink : ∃ t, runCalls [.unlink (fun _ => true) [slash, 0x41]]
    ⟨guarded, []⟩ = some t ∧ Persists (fun w y => FileAt w y ∧ ProtectedDelete w y)
      (fun _ _ _ => False) t.issued t.volume (0, 2, 0) := by
  have hrun : (runCalls [.unlink (fun _ => true) [slash, 0x41]] ⟨guarded, []⟩).isSome = true := by
    decide +kernel
  obtain ⟨t, ht⟩ := Option.isSome_iff_exists.mp hrun
  have hissued : t.issued = [(guarded, .fat16Unlink 0 [0x41])] := by
    have h : ((runCalls [.unlink (fun _ => true) [slash, 0x41]] ⟨guarded, []⟩).map
      Session.issued) = some [(guarded, .fat16Unlink 0 [0x41])] := rfl
    simpa [ht] using h
  refine ⟨t, ht, (protection_respected _ guarded guarded_working guarded_wellFormed t ht ?_
    (0, 2, 0) guarded_file.1).1 guarded_file.2⟩
  rw [hissued]
  rintro uc huc
  obtain rfl := List.mem_singleton.mp huc
  refine ⟨⟨.refl, validName_A⟩, fun x _ _ => ⟨id, ?_⟩⟩
  rintro ⟨q, hdir, -, -, ho | hd | hs⟩
  · exact ho
  · exact guarded_only hd.1.1 hdir
  · exact hs

/-- `vfs_write_file` on the file leaves no +gd entry in the root directory. -/
theorem protection_lost : ∃ t, Working guarded ∧ WellFormed guarded ∧
    FileAt guarded (0, 2, 0) ∧ ProtectedDelete guarded (0, 2, 0) ∧
    runCalls [.writeFile (fun _ => true) true true [slash, 0x41] [1] ⟨0, 0⟩] ⟨guarded, []⟩ =
      some t ∧ ∀ y, FileAt t.volume y → ¬ ProtectedDelete t.volume y := by
  have hrun : (runCalls [.writeFile (fun _ => true) true true [slash, 0x41] [1] ⟨0, 0⟩]
      ⟨guarded, []⟩).map (fun t => decide (t.volume.bpb.rootLbas = [2] ∧ ∀ i ∈ List.range 16,
        (t.volume.entryAt (2, i)).attributes &&& attrDirectory = 0 ∧
        (t.volume.entryAt (2, i)).attributes &&& attrProtectDelete = 0)) = some true := by
    decide +kernel
  obtain ⟨t, ht, hdec⟩ := Option.map_eq_some_iff.mp hrun
  obtain ⟨hroot, hslots⟩ := of_decide_eq_true hdec
  have hin : ∀ p, InDir t.volume 0 p → p.1 = 2 ∧ p.2 < 16 := by
    rintro p ⟨L, ⟨-, rfl⟩ | ⟨h2, -⟩, hp⟩
    · rw [hroot] at hp
      exact ⟨List.mem_singleton.mp (mem_slotsOf.mp hp).1, (mem_slotsOf.mp hp).2⟩
    · omega
  have hone : ∀ d, Reachable t.volume d → d = 0 := by
    intro d hd
    induction hd with
    | refl => rfl
    | tail _ hc ih =>
      obtain ⟨⟨lba, i⟩, hq, hdir, -⟩ := hc
      obtain ⟨rfl, h2⟩ := hin _ (ih ▸ hq.1)
      exact absurd (hslots i (List.mem_range.mpr h2)).1 hdir
  refine ⟨t, guarded_working, guarded_wellFormed, guarded_file.1, guarded_file.2, ht, ?_⟩
  rintro ⟨d, lba, i⟩ hy hp
  obtain ⟨rfl, h2⟩ := hin (lba, i) (hone d hy.reachable ▸ hy.visible.1)
  exact hp (hslots i (List.mem_range.mpr h2)).2

end Runs

end Vlsmc.FileProtection
