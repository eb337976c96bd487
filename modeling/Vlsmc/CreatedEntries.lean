import Vlsmc.DirectoryEdits
import Vlsmc.Fat16Namespace
import Vlsmc.StorableNames
import Vlsmc.Fat16ReadBounds

/-!
# Entries that are created

`write_file_in_dir`, `fat16_create` and `fat16_mkdir` put an entry into the first free slot of a
directory, or into a cluster added to it. No used slot before it answers the name, so the entry is
what a lookup of the name finds, if the 8.3 form of the name still reads as the name.
-/

set_option autoImplicit false

namespace Vlsmc.CreatedEntries
open Vlsmc.Fat16Layout Vlsmc.Fat16Names Vlsmc.Fat16Volume Vlsmc.Fat16Files
open Vlsmc.Fat16Geometry Vlsmc.Fat16Chains Vlsmc.Fat16Directory Vlsmc.Fat16Updates
open Vlsmc.Fat16Growth Vlsmc.Fat16Store Vlsmc.Fat16Operations Vlsmc.Fat16Namespace
open Vlsmc.PathLookups Vlsmc.DirectoryEdits Vlsmc.StorableNames

/-- The slot that `write_file_in_dir` gets from `find_free_dir_entry`. -/
def writeFileSlot (v : Volume) (dir : ℕ) (name data : List UInt8) : Option (Option Slot) := do
  match ← dropOld v dir name with
  | none => return none
  | some v1 =>
    match ← storeLoop data storeFuel v1 0 0 0 with
    | (none, _) => return none
    | (some _, v2) => return (← v2.flushFat.findFreeDirEntry dir).1

/-- The slot that `fat16_mkdir` gets from `find_free_dir_entry`. -/
def mkdirSlot (v : Volume) (dir : ℕ) : Option (Option Slot) := do
  return (← v.findFreeDirEntry dir).1

/-- The calls that create an entry. -/
inductive Creation
  | writeFile (data : List UInt8)
  | create (kmallocOk : Bool)
  | mkdir

def Creation.run (v : Volume) (dir : ℕ) (name : List UInt8) (now : Stamp) :
    Creation → Option (Bool × Volume)
  | .writeFile data => writeFileInDir v dir name data now
  | .create kmallocOk => (fat16Create kmallocOk v dir name now).map fun r => (r.1.isSome, r.2)
  | .mkdir => fat16Mkdir v dir name now

def Creation.slot (v : Volume) (dir : ℕ) (name : List UInt8) : Creation → Option (Option Slot)
  | .writeFile data => writeFileSlot v dir name data
  | .create _ => writeFileSlot v dir name []
  | .mkdir => mkdirSlot v dir

/-- The clusters that are freed with the old entry of the name are not those of the directory. -/
def Apart (v : Volume) (d : ℕ) (name : List UInt8) : Prop :=
  ∀ p, Finds v d name p → ∀ t, FatChain v d (d::t) → ∀ c ∈ freedWith v p, c ∉ d::t

section Frame

variable {v w : Volume} {d : ℕ} {L : List ℕ} {name : List UInt8}

/-- `w` has the directory of `v`, with the same sectors. -/
structure Holds (v w : Volume) (d : ℕ) (L : List ℕ) : Prop where
  bpb : w.bpb = v.bpb
  working : Working w
  lbas : DirLbas w d L
  data : ∀ lba ∈ L, w.disk.data lba = v.disk.data lba

theorem holds_trans {u : Volume} (h : Holds u v d L) (h' : Holds v w d L) : Holds u w d L :=
  ⟨h'.bpb.trans h.bpb, h'.working, h'.lbas, fun lba hl => (h'.data lba hl).trans (h.data lba hl)⟩

theorem holds_entry (h : Holds v w d L) {p : Slot} (hp : p ∈ slotsOf L) :
    w.entryAt p = v.entryAt p := by
  rw [Volume.entryAt, h.data _ (mem_slotsOf.mp hp).1, Volume.entryAt]

/-- What is done to free clusters leaves the directory as it is. -/
theorem holds_of_free (hw : Working v) (hL : DirLbas v d L) (hb : w.bpb = v.bpb)
    (hm : w.mounted = v.mounted) (hsize : w.disk.size = v.disk.size)
    (hfat : ∀ x, v.fat x ≠ 0 → w.fat x = v.fat x)
    (hdata : ∀ x, InRange v.bpb x → v.fat x ≠ 0 → ∀ lba ∈ v.bpb.clusterLbas x,
      w.disk.data lba = v.disk.data lba)
    (hroot : ∀ lba ∈ v.bpb.rootLbas, w.disk.data lba = v.disk.data lba) : Holds v w d L := by
  refine ⟨hb, working_congr hw hb hm hsize, ?_, ?_⟩
  · rcases hL with ⟨rfl, rfl⟩ | ⟨h2, t, ht, rfl⟩
    · exact Or.inl ⟨rfl, by rw [hb]⟩
    · refine Or.inr ⟨h2, t, fatChain_congr hb ht fun x hx => ?_, by rw [hb]⟩
      exact hfat x (fatChain_fat_ne_zero ht x hx)
  · rcases hL with ⟨-, rfl⟩ | ⟨-, t, ht, rfl⟩
    · exact hroot
    · intro lba hl
      obtain ⟨x, hx, hlx⟩ := List.mem_flatMap.mp hl
      exact hdata x (fatChain_range ht x hx) (fatChain_fat_ne_zero ht x hx) lba hlx

theorem holds_flush (hw : Working v) (hL : DirLbas v d L) : Holds v v.flushFat d L :=
  holds_of_free hw hL rfl rfl (flushFat_size v) (fun _ _ => rfl)
    (fun _ hx _ lba hl => flushFat_frame v lba (fatRegion_not_cluster v.bpb hx.1 hx.2 hl))
    fun lba hl => flushFat_frame v lba (fatRegion_not_root v.bpb hl)

/-- Storing a file, or giving its clusters back, is done to free clusters. -/
theorem holds_stored {u : Volume} {data : List UInt8} {cs : List ℕ} (hw : Working v)
    (hL : DirLbas v d L) (h : Stored v u data cs) (hb : w.bpb = u.bpb) (hd : w.disk = u.disk)
    (hm : w.mounted = u.mounted) (hfat : ∀ x, v.fat x ≠ 0 → w.fat x = u.fat x) :
    Holds v w d L := by
  refine holds_of_free hw hL (hb.trans h.bpb) (hm.trans h.mounted) (by rw [hd, h.size])
    (fun x hx => (hfat x hx).trans (h.table x fun hc => hx (h.free x hc)))
    (fun x hx hne lba hl => ?_) fun lba hl => ?_
  · rw [hd]
    exact h.frame lba (stored_outside h hx hne hl)
  · rw [hd]
    exact h.frame lba (stored_root h hl)

/-- The used slots that the directory starts with do not answer the name. -/
def Silent (v : Volume) (L : List ℕ) (name : List UInt8) : Prop :=
  ∀ l₁ l₂, slotsOf L = l₁++l₂ →
    (∀ x ∈ l₁, ¬ (v.entryAt x).isEnd ∧ ¬ (v.entryAt x).isDeleted) →
      ∀ x ∈ l₁, ¬ Answers (v.entryAt x) name

theorem silent_holds (h : Holds v w d L) (hs : Silent v L name) : Silent w L name := by
  intro l₁ l₂ hl hused x hx
  have hent : ∀ y ∈ l₁, w.entryAt y = v.entryAt y := fun y hy =>
    holds_entry h (by rw [hl]; exact List.mem_append_left _ hy)
  rw [hent x hx]
  refine hs l₁ l₂ hl (fun y hy => ?_) x hx
  rw [← hent y hy]
  exact hused y hy

/-- Without an entry of the name nothing answers before the end. -/
theorem silent_absent (hw : Working v) (hL : DirLbas v d L)
    (h : v.findDirEntry d name = some none) : Silent v L name := by
  intro l₁ l₂ hl hused x hx ha
  rw [findDirEntry_slots hw hL, hl, List.findSome?_append] at h
  cases hf : l₁.findSome? (probeAt v name) with
  | none =>
    have hskip := List.findSome?_eq_none_iff.mp hf x hx
    rw [probeAt_hits ha] at hskip
    cases hskip
  | some r =>
    obtain ⟨y, hy, hr⟩ := List.exists_of_findSome?_eq_some hf
    cases r with
    | none => exact (hused y hy).1 (probeAt_stop hr)
    | some q => simp [hf] at h

end Frame

section Dropped

variable {v w : Volume} {d : ℕ} {L : List ℕ} {name : List UInt8} (hw : Working v)
  (hL : DirLbas v d L)
include hw hL

/-- `write_file_in_dir` goes on with the volume, or drops the entry of the name. -/
theorem dropOld_cases (h : dropOld v d name = some (some w)) :
    (v.findDirEntry d name = some none ∧ w = v) ∨ ∃ p, Finds v d name p ∧ Drops v w p := by
  obtain ⟨r, hr⟩ := findDirEntry_returns hw hL name
  cases r with
  | none =>
    simp only [dropOld, hr, Option.bind_eq_bind, Option.bind_some, Option.pure_def,
      Option.some.injEq] at h
    exact Or.inl ⟨hr, h.symm⟩
  | some p =>
    have hload := loadEntry_eq hw ⟨L, hL, (findDirEntry_found hw hL hr).1⟩
    right
    refine ⟨p, hr, ?_⟩
    simp only [dropOld, hr, hload, Option.bind_eq_bind, Option.bind_some] at h
    split_ifs at h with hprot h2
    · simp at h
    · obtain ⟨v1, hv1, hw1⟩ := Option.bind_eq_some_iff.mp h
      obtain ⟨hb, hd, hm, hfat⟩ := freeLoop_frees hv1
      obtain rfl : v1.updateEntry p DirEntry.markDeleted = w := by simpa using hw1
      refine ⟨hb, hm, fun x => ?_, by simp only [Volume.updateEntry, hd]⟩
      rw [updateEntry_fat, hfat, freedWith, if_pos h2]
    · obtain rfl : v.updateEntry p DirEntry.markDeleted = w := by simpa using h
      refine ⟨rfl, rfl, fun x => ?_, rfl⟩
      rw [updateEntry_fat, freedWith, if_neg h2]
      simp

variable {p : Slot} (hp : Finds v d name p) (hd : Drops v w p)
include hp hd

theorem drops_slot (x : Slot) :
    w.entryAt x = setAt v.entryAt p (v.entryAt p).markDeleted x :=
  drops_entry hw ⟨L, hL, (findDirEntry_found hw hL hp).1⟩ hd x

omit hw in
theorem drops_lbas (hap : ∀ t, FatChain v d (d::t) → ∀ c ∈ freedWith v p, c ∉ d::t) :
    DirLbas w d L := by
  rcases hL with ⟨rfl, rfl⟩ | ⟨h2, t, ht, rfl⟩
  · exact Or.inl ⟨rfl, by rw [hd.bpb]⟩
  · refine Or.inr ⟨h2, t, fatChain_congr hd.bpb ht fun c hc => ?_, by rw [hd.bpb]⟩
    rw [hd.fat, if_neg fun hm => hap t ht c hm hc]

/-- The used slots before the dropped one did not answer. -/
theorem silent_dropped : Silent w L name := by
  intro l₁ l₂ hl hused x hx
  obtain ⟨m₁, m₂, hm, -, hbefore⟩ := (finds_slots hw hL).mp hp
  have hpl : p ∉ l₁ := by
    intro hpl
    have hdel := (hused p hpl).2
    rw [drops_slot hw hL hp hd, setAt_same] at hdel
    exact hdel (markDeleted_deleted _)
  have hxp : x ≠ p := fun he => hpl (he ▸ hx)
  rw [drops_slot hw hL hp hd, setAt_ne _ _ hxp]
  refine (hbefore x ?_).2
  -- `l₁` stops before `p`
  rw [hl] at hm
  rcases List.append_eq_append_iff.mp hm with ⟨as, rfl, -⟩ | ⟨as, rfl, has⟩
  · exact List.mem_append_left _ hx
  · cases as with
    | nil => simpa using hx
    | cons a as =>
      obtain ⟨rfl, -⟩ := List.cons.inj has
      exact absurd (by simp) hpl

end Dropped

section Opened

variable {v u w : Volume} {d c : ℕ} {L : List ℕ} {name : List UInt8} {q : Slot}

/-- `find_free_dir_entry` returned `q` and the volume `u`: the slots before `q` are the used ones
that the directory starts with, and chains apart from the directory stay so. -/
structure Opened (v u : Volume) (d : ℕ) (L : List ℕ) (q : Slot) : Prop where
  working : Working u
  place : ∃ M l₁ l₂ l, DirLbas u d M ∧ slotsOf M = l₁++q::l₂ ∧ slotsOf L = l₁++l ∧
    ∀ x ∈ l₁, (¬ (v.entryAt x).isEnd ∧ ¬ (v.entryAt x).isDeleted) ∧ u.entryAt x = v.entryAt x
  keeps : ∀ e l, FatChain v e l → (∀ t, FatChain v d (d::t) → l.Disjoint (d::t)) →
    FatChain u e l ∧ ∀ t, FatChain u d (d::t) → l.Disjoint (d::t)

/-- The first free slot, or the first slot of a new cluster. -/
theorem findFree_cases (hw : Working v) (hL : DirLbas v d L)
    (h : v.findFreeDirEntry d = some (some q, u)) :
    (u = v ∧ (slotsOf L).findSome? (freeAt v) = some q) ∨
    ∃ t c, L = chainLbas v.bpb (d::t) ∧ 2 ≤ d ∧ FatChain v d (d::t) ∧
      (slotsOf L).findSome? (freeAt v) = none ∧ q = (v.bpb.clusterToLba c, 0) ∧
      Extended v u ((d::t).getLast (by simp)) c := by
  rcases hL with ⟨rfl, rfl⟩ | ⟨h2, t, ht, rfl⟩
  · rw [findFreeDirEntry_root hw, Option.some.injEq, Prod.mk.injEq] at h
    exact Or.inl ⟨h.2.symm, h.1⟩
  · rw [findFreeDirEntry_sub hw h2 ht] at h
    cases hf : (slotsOf (chainLbas v.bpb (d::t))).findSome? (freeAt v) with
    | some p =>
      simp only [hf, Option.some.injEq, Prod.mk.injEq] at h
      exact Or.inl ⟨h.2.symm, by rw [h.1]⟩
    | none =>
      simp only [hf, Option.some.injEq] at h
      rcases extendDir_cases hw ((d::t).getLast (by simp)) with hr | ⟨c, x, hr, hx⟩
      · rw [hr] at h
        simp at h
      · rw [hr, Prod.mk.injEq, Option.some.injEq] at h
        obtain ⟨rfl, rfl⟩ := h
        exact Or.inr ⟨t, c, rfl, h2, ht, rfl, rfl, hx⟩

theorem opened_of (hw : Working v) (hL : DirLbas v d L)
    (h : v.findFreeDirEntry d = some (some q, u)) : Opened v u d L q := by
  rcases findFree_cases hw hL h with ⟨rfl, hf⟩ | ⟨t, c, rfl, h2, ht, hf, rfl, hx⟩
  · obtain ⟨l₁, a, l₂, hl, ha, hskip⟩ := List.findSome?_eq_some_iff.mp hf
    obtain ⟨rfl, -⟩ := freeAt_some ha
    exact ⟨hw, ⟨L, l₁, l₂, q::l₂, hL, hl, hl, fun x hx => ⟨freeAt_none (hskip x hx), rfl⟩⟩,
      fun _ _ hl hd => ⟨hl, hd⟩⟩
  · obtain ⟨⟨m, hm⟩, -⟩ := extended_slots hw hx
    obtain ⟨hlast, hnew, hfat⟩ := extended_table ht hx
    have hchain := extended_chain ht hx
    refine ⟨working_congr hw hx.bpb hx.mounted hx.size,
      ⟨chainLbas u.bpb (d::t++[c]), slotsOf (chainLbas v.bpb (d::t)), m, [],
        Or.inr ⟨h2, t++[c], hchain, rfl⟩, ?_, by simp, fun x hxm => ?_⟩, fun e l hl hdis => ?_⟩
    · rw [hx.bpb, chainLbas_append, slotsOf_append, ← hm]
      simp [chainLbas]
    · exact ⟨freeAt_none (List.findSome?_eq_none_iff.mp hf x hxm),
        extend_entry hx.range hx.free hx.data hL hxm⟩
    · have hlt := hdis t ht
      have hc : c ∉ l := fun hm => fatChain_fat_ne_zero hl c hm hx.free
      refine ⟨fatChain_congr hx.bpb hl fun x hxl => hfat x ?_ fun he => hc (he ▸ hxl), ?_⟩
      · exact fun he => hlt hxl (he ▸ List.getLast_mem _)
      · intro t' ht' x hxl hxt
        rw [fatChain_unique ht' hchain, List.mem_append, List.mem_singleton] at hxt
        rcases hxt with hxt | rfl
        · exact hlt hxl hxt
        · exact hc hxl

theorem opened_inDir (h : Opened v u d L q) : InDir u d q := by
  obtain ⟨M, l₁, l₂, -, hM, hl, -⟩ := h.place
  exact ⟨M, hM, by rw [hl]; simp⟩

end Opened

section Written

variable {v u w : Volume} {d : ℕ} {L : List ℕ} {name : List UInt8} {q : Slot} {e : DirEntry}

/-- The entry that the calls write. -/
def IsFresh (name : List UInt8) (e : DirEntry) : Prop :=
  ∃ attributes first size now e', (attributes = attrArchive ∨ attributes = attrDirectory) ∧
    e = freshEntry attributes name first size now e'

/-- The entry was written into slot `q`, and no used slot before it answers the name. -/
structure Written (w : Volume) (d : ℕ) (name : List UInt8) (q : Slot) : Prop where
  working : Working w
  place : ∃ M l₁ l₂, DirLbas w d M ∧ slotsOf M = l₁++q::l₂ ∧
    ∀ x ∈ l₁, ¬ (w.entryAt x).isEnd ∧ ¬ Answers (w.entryAt x) name
  entry : IsFresh name (w.entryAt q)
  apart : ∀ t, FatChain w d (d::t) → ∀ c ∈ freedWith w q, c ∉ d::t

theorem written_of (ho : Opened v u d L q) (hs : Silent v L name) (hw : Working w)
    (hlbas : ∀ M, DirLbas u d M → DirLbas w d M)
    (hent : ∀ M, DirLbas u d M → ∀ x ∈ slotsOf M, w.entryAt x = setAt u.entryAt q e x)
    (he : IsFresh name e)
    (hap : w.entryAt q = e → ∀ t, FatChain w d (d::t) → ∀ c ∈ freedWith w q, c ∉ d::t) :
    Written w d name q := by
  obtain ⟨M, l₁, l₂, l, hM, hl, hL, hbefore⟩ := ho.place
  have hq : w.entryAt q = e := by
    rw [hent M hM q (by simp [hl]), setAt_same]
  refine ⟨hw, ⟨M, l₁, l₂, hlbas M hM, hl, fun x hx => ?_⟩, hq ▸ he, hap hq⟩
  have hxq : x ≠ q := by
    have hnd := slotsOf_nodup (dirLbas_nodup hM)
    rw [hl] at hnd
    exact fun h => (List.nodup_append.mp hnd).2.2 x hx q (by simp) h
  rw [hent M hM x (by simp [hl, hx]), setAt_ne _ _ hxq, (hbefore x hx).2]
  exact ⟨(hbefore x hx).1.1, hs l₁ l hL (fun y hy => (hbefore y hy).1) x hx⟩

/-- What is freed with an entry whose chain is known. -/
theorem freedWith_of_chain {cs : List ℕ} (hcl : (w.entryAt q).cluster = cs.headD 0)
    (hchain : cs ≠ [] → FatChain w (cs.headD 0) cs) : freedWith w q = cs := by
  rw [freedWith, hcl]
  cases cs with
  | nil => rfl
  | cons c t =>
    have hc := hchain (by simp)
    have hlen := fatChain_length hc
    rw [List.headD_cons] at hc ⊢
    rw [if_pos hc.2.1.1]
    exact chainFrom_chain hc (by unfold chainFuel; omega)

theorem headD_lt {b : Bpb} {cs : List ℕ} (h : ∀ c ∈ cs, InRange b c) : cs.headD 0 < 65536 := by
  cases cs with
  | nil => decide
  | cons c t =>
    have hc := (h c (by simp)).2
    have := total_le b
    exact lt_of_lt_of_le hc (by omega)

/-- The clusters of a directory were not free before. -/
theorem stored_apart {data : List UInt8} {cs : List ℕ} (hL : DirLbas v d L)
    (h : Stored v u data cs) : ∀ t, FatChain u d (d::t) → cs.Disjoint (d::t) := by
  intro t ht x hx hxt
  rcases hL with ⟨rfl, -⟩ | ⟨-, t', ht', -⟩
  · exact absurd (fatChain_range ht 0 (by simp)).1 (by decide)
  · have hu : FatChain u d (d::t') := fatChain_congr h.bpb ht' fun y hy =>
      h.table y fun hc => fatChain_fat_ne_zero ht' y hy (h.free y hc)
    rw [fatChain_unique ht hu] at hxt
    exact fatChain_fat_ne_zero ht' x hxt (h.free x hx)

/-- The stored clusters get their entry. -/
theorem written_file {v1 v2 : Volume} {data : List UInt8} {cs : List ℕ} (hw : Working v1)
    (hL : DirLbas v1 d L) (hs : Silent v1 L name) (hst : Stored v1 v2 data cs)
    (hfree : v2.flushFat.findFreeDirEntry d = some (some q, u)) (size : ℕ) (now : Stamp) :
    Written (u.updateEntry q (freshEntry attrArchive name (cs.headD 0) size now)) d name q := by
  have hold : Holds v1 v2 d L := holds_stored hw hL hst rfl rfl rfl fun _ _ => rfl
  have hflush := holds_flush hold.working hold.lbas
  have ho := opened_of hflush.working hflush.lbas hfree
  have hread := inDir_readable ho.working (opened_inDir ho)
  refine written_of ho (silent_holds (holds_trans hold hflush) hs)
    (working_congr ho.working rfl rfl (updateEntry_size u q _))
    (fun M hM => (Fat16Soundness.rewrite_dirLbas rfl fun _ => rfl).mpr hM)
    (fun M _ x _ => updateEntry_entryAt u q _ hread x)
    ⟨_, _, _, _, _, Or.inl rfl, rfl⟩ fun hent t ht x hx => ?_
  have hcl : ((u.updateEntry q (freshEntry attrArchive name (cs.headD 0) size now)).entryAt
      q).cluster = cs.headD 0 := by
    rw [hent]
    exact freshEntry_cluster _ _ _ _ _ (headD_lt hst.range)
  have hdis : ∀ t, FatChain v2.flushFat d (d::t) → cs.Disjoint (d::t) := fun t ht =>
    stored_apart hL hst t ht
  by_cases hnil : cs = []
  · rw [freedWith_of_chain hcl fun h => absurd hnil h, hnil] at hx
    simp at hx
  · obtain ⟨c, cs', rfl⟩ := List.exists_cons_of_ne_nil hnil
    obtain ⟨hchain, hdisu⟩ := ho.keeps c (c::cs') (hst.chain c cs' rfl) hdis
    rw [freedWith_of_chain hcl fun _ => hchain] at hx
    exact fun hxt => hdisu t ht hx hxt

/-- The ends of the cluster loop of `write_file_in_dir`. -/
theorem storeLoop_ends {v1 v2 : Volume} {data : List UInt8} {r : Option ℕ} (hw : Working v1)
    (h : storeLoop data storeFuel v1 0 0 0 = some (r, v2)) :
    (r = none ∧ ∃ (cs : List ℕ) (u w' : Volume), Stored v1 u data cs ∧ v2 = w'.flushFat ∧
      w'.bpb = v1.bpb ∧ w'.disk = u.disk ∧ w'.mounted = v1.mounted ∧ ∀ x, w'.fat x = v1.fat x) ∨
    ∃ cs, r = some (cs.headD 0) ∧ Stored v1 v2 data cs := by
  obtain ⟨r', v2', hst, hcases⟩ := storeLoop_cases hw storeFuel (stored_nil v1 data) (by decide)
  have hzero : filled v1.bpb data [] = 0 := by simp [filled]
  rw [hzero] at hst
  change storeLoop data storeFuel v1 0 0 0 = some (r', v2') at hst
  obtain ⟨rfl, rfl⟩ := Prod.mk.inj (Option.some.inj (h.symm.trans hst))
  rcases hcases with ⟨hr, cs, u, w', hs, hv, hb, hd, hm, hfat, -⟩ | ⟨cs, hr, hs, -⟩
  · exact Or.inl ⟨hr, cs, u, w', hs, hv, hb, hd, hm, hfat⟩
  · exact Or.inr ⟨cs, hr, hs⟩

/-- The way of a successful `write_file_in_dir`. -/
theorem writeFileInDir_steps (hw : Working v) (hL : DirLbas v d L) {data : List UInt8}
    {now : Stamp} (h : writeFileInDir v d name data now = some (true, w)) :
    ∃ v1 v2 cs u q, dropOld v d name = some (some v1) ∧ Working v1 ∧
      storeLoop data storeFuel v1 0 0 0 = some (some (cs.headD 0), v2) ∧ Stored v1 v2 data cs ∧
      v2.flushFat.findFreeDirEntry d = some (some q, u) ∧
      writeFileSlot v d name data = some (some q) ∧
      w = u.updateEntry q (freshEntry attrArchive name (cs.headD 0) data.length now) := by
  have hm : ¬ v.mounted = false := by simp [hw.mounted]
  rw [writeFileInDir, if_neg hm] at h
  obtain ⟨r, hdrop, h⟩ := Option.bind_eq_some_iff.mp h
  cases r with
  | none => simp at h
  | some v1 =>
    obtain ⟨⟨r, v2⟩, hstore, h⟩ := Option.bind_eq_some_iff.mp h
    have hw1 : Working v1 := by
      rcases dropOld_cases hw hL hdrop with ⟨-, rfl⟩ | ⟨p, -, hd⟩
      · exact hw
      · exact drops_working hw hd
    rcases storeLoop_ends hw1 hstore with ⟨rfl, -⟩ | ⟨cs, rfl, hst⟩
    · simp at h
    · dsimp only at h
      rw [linkFile] at h
      obtain ⟨⟨r, u⟩, hfree, h⟩ := Option.bind_eq_some_iff.mp h
      cases r with
      | none => simp at h
      | some q =>
        refine ⟨v1, v2, cs, u, q, hdrop, hw1, hstore, hst, hfree, ?_,
          (congrArg Prod.snd (Option.some.inj h)).symm⟩
        simp [writeFileSlot, hdrop, hstore, hfree]

theorem writeFileInDir_written (hw : Working v) (hL : DirLbas v d L) (hap : Apart v d name)
    {data : List UInt8} {now : Stamp} (h : writeFileInDir v d name data now = some (true, w)) :
    ∃ q, writeFileSlot v d name data = some (some q) ∧ Written w d name q := by
  obtain ⟨v1, v2, cs, u, q, hdrop, hw1, -, hst, hfree, hslot, rfl⟩ := writeFileInDir_steps hw hL h
  refine ⟨q, hslot, ?_⟩
  rcases dropOld_cases hw hL hdrop with ⟨hnone, rfl⟩ | ⟨p, hp, hd⟩
  · exact written_file hw hL (silent_absent hw hL hnone) hst hfree _ _
  · exact written_file hw1 (drops_lbas hL hp hd (hap p hp)) (silent_dropped hw hL hp hd) hst hfree
      _ _

/-- The slot was read, or is in a new cluster. -/
theorem free_readable (hw : Working v) (h : v.findFreeDirEntry d = some (some q, u)) :
    q.1 < u.disk.size := by
  have hsector : ∀ L : List ℕ, L.findSome? v.freeInSector = some q → q.1 < v.disk.size := by
    intro L hL
    obtain ⟨lba, -, hlba⟩ := List.exists_of_findSome?_eq_some hL
    unfold Volume.freeInSector Disk.read at hlba
    split_ifs at hlba with hlt
    · obtain ⟨i, -, hi⟩ := List.exists_of_findSome?_eq_some hlba
      unfold Volume.freeEntry at hi
      split_ifs at hi
      obtain rfl := Option.some.inj hi
      exact hlt
  unfold Volume.findFreeDirEntry at h
  split_ifs at h with hm hd
  · simp at h
  · obtain ⟨hq, rfl⟩ := Prod.mk.inj (Option.some.inj h)
    exact hsector _ hq
  · split at h
    · cases h
    · next r hwalk =>
      obtain ⟨hq, rfl⟩ := Prod.mk.inj (Option.some.inj h)
      obtain rfl := Option.some.inj hq
      obtain ⟨x, hx⟩ := SuccessorChain.walk_returns hwalk
      exact hsector _ hx
    · next prev hwalk =>
      rcases extendDir_cases hw prev with hr | ⟨c, x, hr, hx⟩
      · rw [hr] at h
        simp at h
      · rw [hr] at h
        obtain ⟨hq, rfl⟩ := Prod.mk.inj (Option.some.inj h)
        obtain rfl := Option.some.inj hq
        obtain ⟨l, hl⟩ := clusterLbas_first hx.range.1 hx.range.2 hw.cluster
        have hmem : v.bpb.clusterToLba c ∈ v.bpb.clusterLbas c := by rw [hl]; simp
        have hlt := cluster_lt_dataEnd v.bpb hx.range.1 hx.range.2 hmem
        rw [hx.size]
        exact lt_of_lt_of_le hlt hw.accepts

/-- The slot holds the new entry, also where the directory lost its own clusters to it. -/
theorem writeFileInDir_fresh (hw : Working v) (hL : DirLbas v d L) {data : List UInt8}
    {now : Stamp} (h : writeFileInDir v d name data now = some (true, w)) :
    ∃ q, writeFileSlot v d name data = some (some q) ∧ IsFresh name (w.entryAt q) := by
  obtain ⟨v1, v2, cs, u, q, -, hw1, -, hst, hfree, hslot, rfl⟩ := writeFileInDir_steps hw hL h
  have hw2 : Working v2 := working_congr hw1 hst.bpb hst.mounted hst.size
  have hw3 : Working v2.flushFat := working_congr hw2 rfl rfl (flushFat_size v2)
  have hread := free_readable hw3 hfree
  refine ⟨q, hslot, attrArchive, cs.headD 0, data.length, now, u.entryAt q, Or.inl rfl, ?_⟩
  rw [updateEntry_entryAt u q _ hread, setAt_same]

/-- The new directory gets its entry. -/
theorem written_directory {c : ℕ} (ho : Opened v u d L q) (hs : Silent v L name)
    (hc : InRange u.bpb c) (h0 : u.fat c = 0) (now : Stamp) :
    Written (withNewDir u q c d (freshEntry attrDirectory name c 0 now)) d name q := by
  have hlt : c < 65536 := by
    have h1 := hc.2
    have h2 := total_le u.bpb
    omega
  obtain ⟨hadds, hww, -⟩ := withNewDir_adds ho.working (opened_inDir ho) hc h0
    (rfl : freshEntry attrDirectory name c 0 now (u.entryAt q) = _) d
  generalize withNewDir u q c d (freshEntry attrDirectory name c 0 now) = w at hadds hww
  have hkept : ∀ e l, FatChain u e l → FatChain w e l := fun e l hl =>
    fatChain_congr hadds.bpb hl fun x hx => by
      have hxc : x ≠ c := fun he => fatChain_fat_ne_zero hl x hx (he ▸ h0)
      rw [hadds.fat, if_neg hxc]
  refine written_of ho hs hww (fun M hM => ?_) (fun M hM x hx => ?_)
    ⟨attrDirectory, c, 0, now, u.entryAt q, Or.inr rfl, rfl⟩ fun hent t ht x hx => ?_
  · rcases hM with ⟨rfl, rfl⟩ | ⟨h2, t, ht, rfl⟩
    · exact Or.inl ⟨rfl, by rw [hadds.bpb]⟩
    · exact Or.inr ⟨h2, t, hkept d _ ht, by rw [hadds.bpb]⟩
  · refine Eq.trans ?_ (entryAt_write q u.disk.data _ x)
    by_cases hxq : x.1 = q.1
    · rw [if_pos hxq, Volume.entryAt, hxq, hadds.slot]
    · have hxl := (mem_slotsOf.mp hx).1
      rw [if_neg hxq, Volume.entryAt, hadds.data x.1 (dirLbas_not_fat hM hxl)
        (dir_sector_free ⟨M, hM, hx⟩ hc h0) hxq]
  · have hcl : (w.entryAt q).cluster = [c].headD 0 := by
      rw [hent]
      exact freshEntry_cluster _ _ _ _ _ hlt
    have hself : FatChain w c [c] := by
      refine ⟨rfl, by rwa [hadds.bpb], ?_⟩
      rw [hadds.fat, if_pos rfl]
      exact (by decide : 0xFFF8 ≤ 0xFFFF)
    rw [freedWith_of_chain hcl fun _ => hself, List.mem_singleton] at hx
    obtain ⟨M, -, -, -, hM, -⟩ := ho.place
    rcases hM with ⟨rfl, -⟩ | ⟨-, t', ht', -⟩
    · exact absurd (fatChain_range ht 0 (by simp)).1 (by decide)
    · rw [fatChain_unique ht (hkept d _ ht'), hx]
      exact fun hxt => fatChain_fat_ne_zero ht' c hxt h0

theorem fat16Mkdir_written (hw : Working v) (hL : DirLbas v d L) {now : Stamp}
    (h : fat16Mkdir v d name now = some (true, w)) :
    ∃ q, mkdirSlot v d = some (some q) ∧ Written w d name q := by
  have hm : ¬ v.mounted = false := by simp [hw.mounted]
  rw [fat16Mkdir, if_neg hm] at h
  obtain ⟨r, hfind, h⟩ := Option.bind_eq_some_iff.mp h
  cases r with
  | some p => simp at h
  | none =>
    obtain ⟨⟨r, u⟩, hfree, h⟩ := Option.bind_eq_some_iff.mp h
    cases r with
    | none => simp at h
    | some q =>
      have ho := opened_of hw hL hfree
      dsimp only at h
      rcases allocCluster_cases u with ⟨ha, -⟩ | ⟨c, ha, hc, h0⟩
      · rw [ha] at h
        simp at h
      · have hc2 := hc.1
        have hw' : withNewDir u q c d (freshEntry attrDirectory name c 0 now) = w := by
          rw [ha] at h
          obtain ⟨k, rfl⟩ : ∃ k, c = k+1 := ⟨c-1, by omega⟩
          exact congrArg Prod.snd (Option.some.inj h)
        rw [← hw']
        exact ⟨q, by simp [mkdirSlot, hfree],
          written_directory ho (silent_absent hw hL hfind) hc h0 now⟩

end Written

section Again

variable {v w : Volume} {d : ℕ} {L : List ℕ} {name : List UInt8}

/-- Changing a predicate at one element of a list without repetitions. -/
theorem countP_except {α : Type*} [DecidableEq α] {P Q : α → Bool} {q : α} {l : List α}
    (hn : l.Nodup) (hq : q ∈ l) (h : ∀ x ∈ l, x ≠ q → P x = Q x) :
    l.countP P+(if Q q then 1 else 0) = l.countP Q+(if P q then 1 else 0) := by
  obtain ⟨l₁, l₂, rfl⟩ := List.append_of_mem hq
  obtain ⟨-, h₂, hdis⟩ := List.nodup_append.mp hn
  have h1 : l₁.countP P = l₁.countP Q := List.countP_congr fun x hx => by
    rw [h x (by simp [hx]) fun he => hdis x hx q (by simp) he]
  have h2 : l₂.countP P = l₂.countP Q := List.countP_congr fun x hx => by
    rw [h x (by simp [hx]) fun he => (List.nodup_cons.mp h₂).1 (he ▸ hx)]
  rw [List.countP_append, List.countP_append, List.countP_cons, List.countP_cons, h1, h2]
  omega

def InUse (v : Volume) (p : Slot) : Prop := ¬ (v.entryAt p).isEnd ∧ ¬ (v.entryAt p).isDeleted

instance (v : Volume) (p : Slot) : Decidable (InUse v p) := inferInstanceAs (Decidable (_ ∧ _))

theorem inUse_congr {p : Slot} (h : w.entryAt p = v.entryAt p) : InUse w p ↔ InUse v p := by
  unfold InUse
  rw [h]

/-- The number of entries of the directory. -/
def entries (v : Volume) (L : List ℕ) : ℕ := (slotsOf L).countP fun p => InUse v p

theorem entries_congr (h : ∀ p ∈ slotsOf L, w.entryAt p = v.entryAt p) :
    entries w L = entries v L := by
  apply List.countP_congr
  intro p hp
  simpa using inUse_congr (h p hp)

/-- The directory has no more entries than before. -/
def AddsNone (v w : Volume) (d : ℕ) : Prop :=
  ∃ L M, DirLbas v d L ∧ DirLbas w d M ∧ entries w M ≤ entries v L

theorem entries_dropped {p : Slot} (hw : Working v) (hL : DirLbas v d L) (hp : Finds v d name p)
    (hd : Drops v w p) : entries w L+1 = entries v L := by
  obtain ⟨hin, hsh, -⟩ := findDirEntry_found hw hL hp
  have hcount := countP_except (P := fun x => decide (InUse w x)) (Q := fun x => decide (InUse v x))
    (slotsOf_nodup (dirLbas_nodup hL)) hin fun x _ hx => decide_eq_decide.mpr
      (inUse_congr (by rw [drops_slot hw hL hp hd, setAt_ne _ _ hx]))
  have hnew : ¬ InUse w p := by
    rw [InUse, drops_slot hw hL hp hd, setAt_same]
    exact fun h => h.2 (markDeleted_deleted _)
  have hold : InUse v p := ⟨hsh.used, hsh.kept⟩
  simp only [hnew, hold, decide_true, decide_false, if_true, Bool.false_eq_true, if_false] at hcount
  exact hcount

/-- While the directory has a free slot, it is not extended. -/
theorem findFree_within {x : Slot} (hw : Working v) (hL : DirLbas v d L) (hx : x ∈ slotsOf L)
    (hfree : ¬ InUse v x) : ∃ q ∈ slotsOf L, v.findFreeDirEntry d = some (some q, v) := by
  have hsome : ∃ q, (slotsOf L).findSome? (freeAt v) = some q := by
    cases hf : (slotsOf L).findSome? (freeAt v) with
    | some q => exact ⟨q, rfl⟩
    | none => exact absurd (freeAt_none (List.findSome?_eq_none_iff.mp hf x hx)) hfree
  obtain ⟨q, hq⟩ := hsome
  have hmem : q ∈ slotsOf L := by
    obtain ⟨a, ha, haq⟩ := List.exists_of_findSome?_eq_some hq
    obtain ⟨rfl, -⟩ := freeAt_some haq
    exact ha
  refine ⟨q, hmem, ?_⟩
  rcases hL with ⟨rfl, rfl⟩ | ⟨h2, t, ht, rfl⟩
  · rw [findFreeDirEntry_root hw, hq]
  · rw [findFreeDirEntry_sub hw h2 ht, hq]

theorem entries_update {q : Slot} (hw : Working v) (hL : DirLbas v d L) (hq : q ∈ slotsOf L)
    (f : DirEntry → DirEntry) : entries (v.updateEntry q f) L ≤ entries v L+1 := by
  have hread := inDir_readable hw ⟨L, hL, hq⟩
  have hcount := countP_except (P := fun x => decide (InUse (v.updateEntry q f) x))
    (Q := fun x => decide (InUse v x)) (slotsOf_nodup (dirLbas_nodup hL)) hq
    fun x _ hx => decide_eq_decide.mpr
      (inUse_congr (by rw [updateEntry_entryAt v q f hread, setAt_ne _ _ hx]))
  unfold entries
  split_ifs at hcount <;> omega

theorem addsNone_refl (hL : DirLbas v d L) : AddsNone v v d := ⟨L, L, hL, hL, le_rfl⟩

/-- Writing a file again takes an entry out and puts at most one in. -/
theorem writeFileInDir_addsNone {p : Slot} (hw : Working v) (hL : DirLbas v d L)
    (hap : Apart v d name) (hp : Finds v d name p) {data : List UInt8} {now : Stamp} {b : Bool}
    (h : writeFileInDir v d name data now = some (b, w)) : AddsNone v w d := by
  have hm : ¬ v.mounted = false := by simp [hw.mounted]
  rw [writeFileInDir, if_neg hm] at h
  obtain ⟨r, hdrop, h⟩ := Option.bind_eq_some_iff.mp h
  cases r with
  | none =>
    obtain rfl : v = w := congrArg Prod.snd (Option.some.inj h)
    exact addsNone_refl hL
  | some v1 =>
    obtain ⟨p', hp', hd⟩ : ∃ p', Finds v d name p' ∧ Drops v v1 p' := by
      rcases dropOld_cases hw hL hdrop with ⟨hnone, -⟩ | hfound
      · rw [Finds, hnone] at hp
        simp at hp
      · exact hfound
    have hw1 := drops_working hw hd
    have hL1 := drops_lbas hL hp' hd (hap p' hp')
    have hcount := entries_dropped hw hL hp' hd
    obtain ⟨⟨r, v2⟩, hstore, h⟩ := Option.bind_eq_some_iff.mp h
    rcases storeLoop_ends hw1 hstore with
      ⟨rfl, cs, u, w', hst, rfl, hb, hdisk, hmount, hfat⟩ | ⟨cs, rfl, hst⟩
    · -- the disk is full
      obtain rfl : w'.flushFat = w := congrArg Prod.snd (Option.some.inj h)
      have hold : Holds v1 w' d L := holds_stored hw1 hL1 hst (hb.trans hst.bpb.symm) hdisk
        (hmount.trans hst.mounted.symm) fun x hx => by
          rw [hfat, hst.table x fun hc => hx (hst.free x hc)]
      have hflush := holds_trans hold (holds_flush hold.working hold.lbas)
      have hsame := entries_congr fun p hp => holds_entry hflush hp
      exact ⟨L, L, hL, hflush.lbas, by omega⟩
    · have hold : Holds v1 v2 d L := holds_stored hw1 hL1 hst rfl rfl rfl fun _ _ => rfl
      have hflush := holds_trans hold (holds_flush hold.working hold.lbas)
      have hin : p' ∈ slotsOf L := (findDirEntry_found hw hL hp').1
      have hgone : ¬ InUse v2.flushFat p' := by
        rw [inUse_congr (holds_entry hflush hin), InUse, drops_slot hw hL hp' hd, setAt_same]
        exact fun h => h.2 (markDeleted_deleted _)
      obtain ⟨q, hq, hfree⟩ := findFree_within hflush.working hflush.lbas hin hgone
      dsimp only at h
      rw [linkFile, hfree] at h
      have hsame := entries_congr fun p hp => holds_entry hflush hp
      have hle := entries_update hflush.working hflush.lbas hq
        (freshEntry attrArchive name (cs.headD 0) data.length now)
      have hw' : v2.flushFat.updateEntry q
          (freshEntry attrArchive name (cs.headD 0) data.length now) = w :=
        congrArg Prod.snd (Option.some.inj h)
      rw [← hw']
      exact ⟨L, L, hL, (Fat16Soundness.rewrite_dirLbas rfl fun _ => rfl).mpr hflush.lbas, by omega⟩

/-- The volume after `fat16_create` is that after its `write_file_in_dir`. -/
theorem create_writes {kmallocOk : Bool} {now : Stamp} {b : Bool}
    (h : (Creation.create kmallocOk).run v d name now = some (b, w)) :
    ∃ ok, writeFileInDir v d name [] now = some (ok, w) ∧ (b = true → ok = true) := by
  obtain ⟨⟨r, u⟩, hcreate, hu⟩ := Option.map_eq_some_iff.mp h
  obtain ⟨hr, rfl⟩ := Prod.mk.inj hu
  obtain ⟨⟨ok, u'⟩, hwrite, hrest⟩ := Option.bind_eq_some_iff.mp hcreate
  cases ok with
  | false =>
    obtain ⟨rfl, rfl⟩ := Prod.mk.inj (Option.some.inj hrest)
    refine ⟨false, hwrite, fun hb => ?_⟩
    rw [← hr] at hb
    cases hb
  | true =>
    obtain ⟨r', -, hr'⟩ := Option.bind_eq_some_iff.mp hrest
    obtain rfl : u' = u := congrArg Prod.snd (Option.some.inj hr')
    exact ⟨true, hwrite, fun _ => rfl⟩

/-- A second creation under the name adds no entry. -/
theorem creation_again {q : Slot} (hq : Written v d name q) (hfinds : Finds v d name q)
    {c : Creation} {now : Stamp} {b : Bool} (h : c.run v d name now = some (b, w)) :
    AddsNone v w d := by
  obtain ⟨M, -, -, hM, -⟩ := hq.place
  have hap : Apart v d name := by
    intro p hp
    rw [← finds_unique hfinds hp]
    exact hq.apart
  have hm : ¬ v.mounted = false := by simp [hq.working.mounted]
  cases c with
  | writeFile data => exact writeFileInDir_addsNone hq.working hM hap hfinds h
  | create kmallocOk =>
    obtain ⟨ok, hwrite, -⟩ := create_writes h
    exact writeFileInDir_addsNone hq.working hM hap hfinds hwrite
  | mkdir =>
    have hfalse : fat16Mkdir v d name now = some (false, v) := by
      rw [fat16Mkdir, if_neg hm, show v.findDirEntry d name = some (some q) from hfinds]
      rfl
    have hw : v = w := congrArg Prod.snd (Option.some.inj (hfalse.symm.trans h))
    rw [← hw]
    exact addsNone_refl hM

end Again

section Found

variable {v w : Volume} {d : ℕ} {L : List ℕ} {name : List UInt8} {q : Slot} {c : Creation}
  {now : Stamp}

theorem creation_written (hw : Working v) (hL : DirLbas v d L) (hap : Apart v d name)
    (h : c.run v d name now = some (true, w)) :
    ∃ q, c.slot v d name = some (some q) ∧ Written w d name q := by
  cases c with
  | writeFile data => exact writeFileInDir_written hw hL hap h
  | create kmallocOk =>
    obtain ⟨ok, hwrite, hok⟩ := create_writes h
    obtain rfl := hok rfl
    exact writeFileInDir_written hw hL hap hwrite
  | mkdir => exact fat16Mkdir_written hw hL h

/-- The entry is where it was written. -/
theorem creation_fresh (hw : Working v) (hL : DirLbas v d L)
    (h : c.run v d name now = some (true, w)) :
    ∃ q, c.slot v d name = some (some q) ∧ IsFresh name (w.entryAt q) := by
  cases c with
  | writeFile data => exact writeFileInDir_fresh hw hL h
  | create kmallocOk =>
    obtain ⟨ok, hwrite, hok⟩ := create_writes h
    obtain rfl := hok rfl
    exact writeFileInDir_fresh hw hL hwrite
  | mkdir =>
    obtain ⟨q, hq, hwritten⟩ := fat16Mkdir_written hw hL h
    exact ⟨q, hq, hwritten.entry⟩

theorem fresh_name {e : DirEntry} (h : IsFresh name e) : ∃ e',
    entryName e = entryName (format83Name name e') ∧
      (e.isDeleted ↔ (format83Name name e').isDeleted) ∧
      (e.isEnd ↔ (format83Name name e').isEnd) ∧ e.attributes &&& attrHiddenMask = 0 := by
  obtain ⟨attributes, first, size, now, e', hattr, rfl⟩ := h
  refine ⟨e', rfl, Iff.rfl, Iff.rfl, ?_⟩
  rcases hattr with rfl | rfl
  · exact (by decide : attrArchive &&& attrHiddenMask = 0)
  · exact (by decide : attrDirectory &&& attrHiddenMask = 0)

/-- The new entry answers its name exactly when the name can be stored. -/
theorem fresh_answers {e : DirEntry} (h0 : 0 ∉ name) (h : IsFresh name e) :
    Answers e name ↔ Storable name := by
  obtain ⟨e', hname, hdel, hend, hmask⟩ := fresh_name h
  rw [storable_iff h0 e', ← hdel, ← hname]
  constructor
  · exact fun ha => ⟨ha.1.kept, ha.2⟩
  · exact fun hs => ⟨⟨fun he => format83_not_end h0 e' (hend.mp he), hs.1, hmask⟩, hs.2⟩

theorem written_finds (h0 : 0 ∉ name) (h : Written w d name q) :
    Finds w d name q ↔ Storable name := by
  obtain ⟨M, l₁, l₂, hM, hl, hbefore⟩ := h.place
  rw [← fresh_answers h0 h.entry]
  constructor
  · intro hf
    obtain ⟨-, hsh, hn⟩ := findDirEntry_found h.working hM hf
    exact ⟨hsh, hn⟩
  · exact fun ha => (finds_slots h.working hM).mpr ⟨l₁, l₂, hl, ha, hbefore⟩

theorem dot_not_storable : ¬ Storable [dot] := by
  rintro ⟨base, ext, hname, -, -, hb, -, -⟩
  cases base with
  | nil =>
    rw [List.nil_append] at hname
    split_ifs at hname with hext
    exact hext (List.cons.inj hname).2.symm
  | cons c base => exact (hb c (by simp)).2 (List.cons.inj hname).1.symm

/-- An entry that is written as `.` is stored without a name. -/
theorem dot_not_found (hq : IsFresh [dot] (w.entryAt q)) : ¬ Finds w d [dot] q := by
  intro hf
  obtain ⟨e', hname, -⟩ := fresh_name hq
  have hmatch := (matchFilename_iff _ _).mp (Fat16ReadBounds.found_entry hf).2
  have hread : entryName (format83Name [dot] e') = [dot].map upper := by rw [← hname]; exact hmatch
  have hbase : baseChars 8 [dot] = ([].map upper, [dot]) := rfl
  have hdel : ¬ (format83Name [dot] e').isDeleted := by
    rw [format83_deleted hbase]
    simp
  exact dot_not_storable ((storable_iff (by decide) e').mpr ⟨hdel, hread⟩)

/-- Apart from `.`, no entry has clusters of the directory that holds it. -/
def Separate (v : Volume) (d : ℕ) : Prop := ∀ n, n ≠ [dot] → Apart v d n

/-- The entry just written is the one that is found, and a second creation adds none, exactly for
the names that the 8.3 form can hold. -/
theorem created_found_iff (hw : Working v) (hL : DirLbas v d L) (hsep : Separate v d)
    (h0 : 0 ∉ name) (h : c.run v d name now = some (true, w)) :
    ∃ q, c.slot v d name = some (some q) ∧ IsFresh name (w.entryAt q) ∧
      ((Finds w d name q ∧ ∀ (c' : Creation) now' b u, c'.run w d name now' = some (b, u) →
        AddsNone w u d) ↔ Storable name) := by
  by_cases hdot : name = [dot]
  · subst hdot
    obtain ⟨q, hslot, hfresh⟩ := creation_fresh hw hL h
    exact ⟨q, hslot, hfresh, iff_of_false (fun hf => dot_not_found hfresh hf.1) dot_not_storable⟩
  · obtain ⟨q, hslot, hwritten⟩ := creation_written hw hL (hsep name hdot) h
    refine ⟨q, hslot, hwritten.entry, fun hf => (written_finds h0 hwritten).mp hf.1, fun hs => ?_⟩
    have hf := (written_finds h0 hwritten).mpr hs
    exact ⟨hf, fun c' now' b u hu => creation_again hwritten hf hu⟩

theorem root_lbas (v : Volume) : DirLbas v 0 v.bpb.rootLbas := Or.inl ⟨rfl, rfl⟩

/-- The root has no clusters. -/
theorem root_apart (v : Volume) (name : List UInt8) : Apart v 0 name := fun _ _ _ ht =>
  absurd (fatChain_range ht 0 (by simp)).1 (by decide)

theorem separate_root (v : Volume) : Separate v 0 := fun name _ => root_apart v name

theorem storable_A : Storable [0x41] :=
  ⟨[0x41], [], rfl, by decide, by decide, List.forall_mem_singleton.mpr (by decide),
    List.not_mem_nil, by decide⟩

theorem created_found_A : ∃ w, (Creation.writeFile [1, 2, 3]).run Fat16Runs.blank 0 [0x41] ⟨0, 0⟩ =
    some (true, w) ∧ ∃ q, Finds w 0 [0x41] q := by
  have hok : ((Creation.writeFile [1, 2, 3]).run Fat16Runs.blank 0 [0x41] ⟨0, 0⟩).map Prod.fst =
      some true := by decide +kernel
  obtain ⟨⟨ok, w⟩, hw, rfl⟩ := Option.map_eq_some_iff.mp hok
  obtain ⟨q, -, -, hq⟩ := created_found_iff Fat16Runs.blank_working (root_lbas _)
    (separate_root _) (by decide) hw
  exact ⟨w, hw, q, (hq.mpr storable_A).1⟩

/-- The name that the test of the user programs opens: `TESTIO  TXT`, padded as on the disk. -/
def testName : List UInt8 := [0x54, 0x45, 0x53, 0x54, 0x49, 0x4F, 0x20, 0x20, 0x54, 0x58, 0x54]

/-- The padded name is created and not found, and created a second time. -/
theorem testName_created_twice : ∃ w u,
    (Creation.writeFile []).run Fat16Runs.blank 0 testName ⟨0, 0⟩ = some (true, w) ∧
    (Creation.writeFile []).run w 0 testName ⟨0, 0⟩ = some (true, u) ∧
    (∀ q, ¬ Finds w 0 testName q) ∧ ¬ AddsNone w u 0 := by
  let found : Option (Bool × Option (Option Slot) × Bool × ℕ × ℕ) := do
    let (a, w) ← (Creation.writeFile []).run Fat16Runs.blank 0 testName ⟨0, 0⟩
    let (b, u) ← (Creation.writeFile []).run w 0 testName ⟨0, 0⟩
    return (a, w.findDirEntry 0 testName, b, entries w w.bpb.rootLbas, entries u u.bpb.rootLbas)
  have hfound : found = some (true, some none, true, 1, 2) := by decide +kernel
  obtain ⟨⟨a, w⟩, hw, hrest⟩ := Option.bind_eq_some_iff.mp hfound
  obtain ⟨⟨b, u⟩, hu, hends⟩ := Option.bind_eq_some_iff.mp hrest
  obtain ⟨rfl, hnone, rfl, hone, htwo⟩ : a = true ∧ w.findDirEntry 0 testName = some none ∧
      b = true ∧ entries w w.bpb.rootLbas = 1 ∧ entries u u.bpb.rootLbas = 2 := by
    simpa using hends
  refine ⟨w, u, hw, hu, fun q hq => ?_, fun ⟨L, M, hl, hm, hle⟩ => ?_⟩
  · rw [Finds, hnone] at hq
    cases hq
  · rw [dirLbas_unique hl (root_lbas w), dirLbas_unique hm (root_lbas u), hone, htwo] at hle
    exact absurd hle (by decide)

end Found

end Vlsmc.CreatedEntries
