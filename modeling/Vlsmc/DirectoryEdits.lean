import Vlsmc.PathLookups

/-!
# Edits of directory slots

The two ways in which the driver changes the slots of a directory, whatever entries they hold.
Dropping an entry marks its slot and clears the table along its chain, which for `.` and `..` is
the chain of a directory. Rewriting fills a free slot, and marks the old one when an entry moves;
the new name may be one that the directory already has.
-/

set_option autoImplicit false

namespace Vlsmc.DirectoryEdits
open Vlsmc.Fat16Layout Vlsmc.Fat16Names Vlsmc.Fat16Volume Vlsmc.Fat16Files
open Vlsmc.Fat16Geometry Vlsmc.Fat16Chains Vlsmc.Fat16Directory Vlsmc.Fat16Soundness
open Vlsmc.Fat16Updates Vlsmc.Fat16Growth Vlsmc.Fat16Effects Vlsmc.Fat16Operations
open Vlsmc.PathLookups
open Relation

section Freed

/-- The clusters whose table entries the loop of `free_chain` clears. -/
def chainFrom : ℕ → Volume → ℕ → List ℕ
  | 0, _, _ => []
  | fuel+1, v, c => if inChain c then c::chainFrom fuel (v.setFat c 0) (v.fat c) else []

theorem chainFrom_succ (fuel : ℕ) (v : Volume) (c : ℕ) : chainFrom (fuel+1) v c =
    if inChain c then c::chainFrom fuel (v.setFat c 0) (v.fat c) else [] := rfl

/-- The clusters that are freed with an entry. -/
def freedWith (v : Volume) (p : Slot) : List ℕ :=
  if 2 ≤ (v.entryAt p).cluster then chainFrom chainFuel v (v.entryAt p).cluster else []

theorem freeLoop_frees {fuel : ℕ} {v w : Volume} {c : ℕ} (h : Volume.freeLoop fuel v c = some w) :
    w.bpb = v.bpb ∧ w.disk = v.disk ∧ w.mounted = v.mounted ∧
      ∀ x, w.fat x = if x ∈ chainFrom fuel v c then 0 else v.fat x := by
  induction fuel generalizing v c with
  | zero => cases h
  | succ fuel ih =>
    rw [Volume.freeLoop] at h
    rw [chainFrom_succ]
    by_cases hc : inChain c = true
    · rw [if_pos hc] at h ⊢
      obtain ⟨hb, hd, hm, hfat⟩ := ih h
      refine ⟨hb, hd, hm, fun x => ?_⟩
      rw [hfat, setFat_fat v c 0 x (by decide)]
      by_cases hx : x = c
      · simp [hx]
      · simp [hx]
    · rw [if_neg hc] at h ⊢
      obtain rfl := Option.some.inj h
      exact ⟨rfl, rfl, rfl, fun x => by simp⟩

theorem chainFrom_table {fuel : ℕ} {v w : Volume} (h : w.fatTable = v.fatTable) (c : ℕ) :
    chainFrom fuel w c = chainFrom fuel v c := by
  induction fuel generalizing v w c with
  | zero => rfl
  | succ fuel ih =>
    have hset : (w.setFat c 0).fatTable = (v.setFat c 0).fatTable := by
      simp only [Volume.setFat, h]
    rw [chainFrom_succ, chainFrom_succ, ih hset, Volume.fat, Volume.fat, h]

theorem chainFrom_chain {fuel : ℕ} {v : Volume} {c : ℕ} {l : List ℕ} (h : FatChain v c l)
    (hf : l.length < fuel) : chainFrom fuel v c = l := by
  induction fuel generalizing v c l with
  | zero => omega
  | succ fuel ih =>
    rw [chainFrom_succ]
    cases l with
    | nil => rw [isLast_inChain c h, if_neg (by decide)]
    | cons x t =>
      obtain ⟨rfl, hx, ht⟩ := h
      have hnd : (c::t).Nodup := fatChain_nodup (c := c) (v := v) ⟨rfl, hx, ht⟩
      obtain ⟨hct, -⟩ := List.nodup_cons.mp hnd
      have htail : FatChain (v.setFat c 0) (v.fat c) t := by
        refine fatChain_congr (v := v) rfl ht fun y hy => ?_
        have hyc : y ≠ c := fun he => hct (he ▸ hy)
        rw [setFat_fat v c 0 y (by decide), if_neg hyc]
      rw [if_pos (inRange_inChain v.bpb c hx), ih htail (by simpa using hf)]

/-- A sound entry is freed with its own chain. -/
theorem freedWith_chain {v : Volume} {d : ℕ} {p : Slot} (hs : Sound v) (hd : Reachable v d)
    (hp : VisibleAt v d p) :
    (2 ≤ (v.entryAt p).cluster → FatChain v (v.entryAt p).cluster (freedWith v p)) ∧
      ((v.entryAt p).cluster < 2 → freedWith v p = []) := by
  unfold freedWith
  by_cases h2 : 2 ≤ (v.entryAt p).cluster
  · obtain ⟨t, ht⟩ := hs.chains d p hd hp h2
    have hlen := fatChain_length ht
    rw [if_pos h2, chainFrom_chain ht (by unfold chainFuel; omega)]
    exact ⟨fun _ => ht, fun h => by omega⟩
  · rw [if_neg h2]
    exact ⟨fun h => absurd h h2, fun _ => rfl⟩

/-- What is freed with a visible entry belongs to no other one. -/
theorem freedWith_apart {v : Volume} {d a : ℕ} {p x : Slot} {l : List ℕ} (hs : Sound v)
    (hd : Reachable v d) (hp : VisibleAt v d p) (ha : Reachable v a) (hx : VisibleAt v a x)
    (hne : x ≠ p) (hl : FatChain v (v.entryAt x).cluster l) : ∀ c ∈ l, c ∉ freedWith v p := by
  intro c hc hm
  obtain ⟨hchain, hnil⟩ := freedWith_chain hs hd hp
  by_cases h2 : 2 ≤ (v.entryAt p).cluster
  · exact hs.disjoint a x d p l _ ha hx hd hp hne hl (hchain h2) hc hm
  · rw [hnil (by omega)] at hm
    exact absurd hm (by simp)

end Freed

/-- The slot is marked as deleted and the clusters of the entry are free. -/
structure Drops (v w : Volume) (p : Slot) : Prop where
  bpb : w.bpb = v.bpb
  mounted : w.mounted = v.mounted
  fat : ∀ x, w.fat x = if x ∈ freedWith v p then 0 else v.fat x
  disk : w.disk = (v.updateEntry p DirEntry.markDeleted).disk

/-- The entry that disappears from the tree; `.` and `..` are no part of it. -/
def lost (v : Volume) (p : Slot) : Option Slot := if isDot (v.entryAt p) then none else some p

/-- `.` or `..` is dropped without a cluster of the tree. -/
def FreesOwn (v : Volume) (p : Slot) : Prop :=
  isDot (v.entryAt p) → ∀ c ∈ freedWith v p, ¬ Owned v c

section Dropped

variable {v w : Volume} {d : ℕ} {p : Slot} (hw : Working v) (hs : Sound v) (hd : Reachable v d)
  (hin : InDir v d p) (hsh : Shown (v.entryAt p)) (h : Drops v w p)
include hw hin h

omit hin in
theorem drops_working : Working w :=
  working_congr hw h.bpb h.mounted (by rw [h.disk, updateEntry_size])

theorem drops_entry (x : Slot) :
    w.entryAt x = setAt v.entryAt p (v.entryAt p).markDeleted x := by
  rw [← updateEntry_entryAt v p _ (inDir_readable hw hin) x, Volume.entryAt, h.disk,
    Volume.entryAt]

include hs hd hsh

/-- The tree without `.` or `..` is the same tree. -/
theorem drops_hidden (hdot : isDot (v.entryAt p)) (hfree : ∀ c ∈ freedWith v p, ¬ Owned v c) :
    Sound w ∧ Spares v w none ∧ (∀ a, Reachable w a → Reachable v a) ∧
      ∀ a x, Reachable w a → (VisibleAt w a x ↔ VisibleAt v a x ∧ x ≠ p) := by
  have hread := inDir_readable hw hin
  have hpv : ¬ Visible (v.entryAt p) := fun hv => hv.named hdot
  generalize hu : v.updateEntry p DirEntry.markDeleted = u
  have hub : u.bpb = v.bpb := by rw [← hu]; rfl
  have huf : ∀ x, u.fat x = v.fat x := fun x => by rw [← hu]; rfl
  have hent : ∀ x, u.entryAt x = setAt v.entryAt p (v.entryAt p).markDeleted x := fun x => by
    rw [← hu, updateEntry_entryAt v p _ hread]
  have hsame : ∀ x, x ≠ p → u.entryAt x = v.entryAt x := fun x hx => by rw [hent, setAt_ne _ _ hx]
  have hvis : ∀ a x, VisibleAt u a x ↔ VisibleAt v a x := by
    intro a x
    unfold VisibleAt
    rw [rewrite_inDir hub huf]
    by_cases hx : x = p
    · rw [hx, hent, setAt_same]
      exact iff_of_false (fun h => h.2.kept (markDeleted_deleted _)) fun h => hpv h.2
    · rw [hsame x hx]
  have hne : ∀ a x, VisibleAt v a x → x ≠ p := by
    rintro a x hx rfl
    exact hpv hx.2
  have hvent : ∀ a x, VisibleAt v a x → u.entryAt x = v.entryAt x := fun a x hx =>
    hsame x (hne a x hx)
  obtain ⟨hsu, hru⟩ := sound_rewrite hub huf hs id (fun _ => False)
    (fun a x ha hx _ => by
      have hx' := (hvis a x).mp hx
      exact ⟨a, ha, hx', by rw [hvent a x hx']; rfl, by rw [hvent a x hx']; exact id⟩)
    (fun _ _ _ _ _ _ _ _ _ _ h => h) (fun _ _ h => h.elim) (fun _ h => h.elim)
    (fun _ h => h.elim)
    (fun a L ha hL => ended_congr (ended_delete (hs.ended a L ha hL) p hsh.used _
      (markDeleted_not_end (v.entryAt p))) fun x _ => hent x)
    (fun a x y ha hx hy hn => by
      have hx' := (hvis a x).mp hx
      have hy' := (hvis a y).mp hy
      rw [hvent a x hx', hvent a y hy'] at hn
      exact hs.names a x y ha hx' hy' hn)
  have hreach : ∀ a, Reachable u a ↔ Reachable v a := by
    refine reachable_congr fun a _ b => exists_congr fun x => ?_
    rw [hvis]
    refine and_congr_right fun hx => ?_
    rw [hvent a x hx]
  have hown : ∀ c, Owned u c → Owned v c := by
    rintro c ⟨a, x, l, ha, hx, hl, hc⟩
    have hx' := (hvis a x).mp hx
    rw [hvent a x hx', rewrite_chain hub huf] at hl
    exact ⟨a, x, l, (hreach a).mp ha, hx', hl, hc⟩
  have ht : SameTree u w := by
    refine ⟨h.bpb.trans hub.symm, fun c hc => ?_, fun c _ lba _ => by rw [h.disk, hu],
      fun lba _ => by rw [h.disk, hu]⟩
    rw [h.fat, huf]
    exact if_neg fun hm => hfree c hm (hown c hc)
  have hrw : ∀ a, Reachable w a ↔ Reachable v a := fun a =>
    (sameTree_reachable hsu ht a).trans (hreach a)
  have hvw : ∀ a x, Reachable v a → (VisibleAt w a x ↔ VisibleAt v a x) := fun a x ha =>
    (sameTree_visible hsu ht ((hreach a).mpr ha)).trans (hvis a x)
  refine ⟨sound_frame hsu ht, fun a ha _ => ⟨(hrw a).mpr ha, fun x hx _ => ⟨(hvw a x ha).mpr hx,
    ?_, fun hfile l hl => ⟨fatChain_congr h.bpb hl fun c hc => ?_, fun lba hlba => ?_⟩⟩⟩,
    fun a ha => (hrw a).mp ha, fun a x ha => ?_⟩
  · have hxu := (hvis a x).mpr hx
    rw [sameTree_entry ht ((hreach a).mpr ha) hxu.1, hvent a x hx]
  · rw [h.fat]
    exact if_neg fun hm => hfree c hm ⟨a, x, l, ha, hx, hl, hc⟩
  · rw [h.disk]
    exact updateEntry_other v p _ lba fun he => dir_sector_file hs hd hin ha hx hfile hl (he ▸ hlba)
  · rw [hvw a x ((hrw a).mp ha)]
    exact ⟨fun hx => ⟨hx, hne a x hx⟩, fun hx => hx.1⟩

/-- What is left of the tree after an entry was dropped. -/
theorem drops_spec (hfree : FreesOwn v p) : Sound w ∧ Spares v w (lost v p) ∧
    (∀ a, Reachable w a → Reachable v a) ∧
      ∀ a x, Reachable w a → (VisibleAt w a x ↔ VisibleAt v a x ∧ x ≠ p) := by
  by_cases hdot : isDot (v.entryAt p)
  · rw [lost, if_pos hdot]
    exact drops_hidden hw hs hd hin hsh h hdot (hfree hdot)
  · rw [lost, if_neg hdot]
    have hp : VisibleAt v d p := ⟨hin, hsh.used, hsh.kept, hsh.shown, hdot⟩
    obtain ⟨hl, hl0⟩ := freedWith_chain hs hd hp
    obtain ⟨hsw, hsp, hcuts, hvis⟩ := drop_spec hs hw hd hp hl hl0 h.bpb h.fat h.disk
    exact ⟨hsw, hsp, fun a ha => (hcuts a ha).1, hvis⟩

omit hw in
/-- The directory itself keeps its clusters. -/
theorem drops_dirLbas (hfree : FreesOwn v p) {L : List ℕ} (hL : DirLbas v d L) :
    DirLbas w d L := by
  rcases hL with ⟨rfl, rfl⟩ | ⟨h2, t, ht, rfl⟩
  · exact Or.inl ⟨rfl, by rw [h.bpb]⟩
  · refine Or.inr ⟨h2, t, fatChain_congr h.bpb ht fun c hc => ?_, by rw [h.bpb]⟩
    rw [h.fat]
    refine if_neg fun hm => ?_
    by_cases hdot : isDot (v.entryAt p)
    · exact hfree hdot c hm (dir_owned hd h2 ht c hc)
    · have hp : VisibleAt v d p := ⟨hin, hsh.used, hsh.kept, hsh.shown, hdot⟩
      obtain ⟨d0, p0, hd0, hp0, hdir, -, rfl⟩ := reachable_owner hd (by omega)
      refine freedWith_apart hs hd hp hd0 hp0 ?_ ht c hc hm
      rintro rfl
      exact own_clear hs hd hp p0 rfl hdir h2 ReflTransGen.refl

end Dropped

/-- Slot `p` comes before slot `q` in directory `d`. -/
def Precedes (v : Volume) (d : ℕ) (p q : Slot) : Prop :=
  ∃ L, DirLbas v d L ∧ [p, q].Sublist (slotsOf L)

/-- A lookup of the name stops at the entry. -/
def Answers (e : DirEntry) (n : Name) : Prop := Shown e ∧ entryName e = n.map upper

section Slots

theorem pair_sublist {α : Type*} {l₁ l₂ : List α} {a b : α} (hn : (l₁++b::l₂).Nodup) :
    [a, b].Sublist (l₁++b::l₂) ↔ a ∈ l₁ := by
  obtain ⟨-, hb, hdis⟩ := List.nodup_append.mp hn
  have hbl : b ∉ l₂ := (List.nodup_cons.mp hb).1
  constructor
  · intro h
    obtain ⟨s₁, s₂, hs, h₁, h₂⟩ := List.sublist_append_iff.mp h
    cases s₁ with
    | nil =>
      rw [List.nil_append] at hs
      rw [← hs] at h₂
      cases h₂ with
      | cons _ h => exact absurd (h.subset (by simp)) hbl
      | cons_cons _ h => exact absurd (h.subset (by simp)) hbl
    | cons c s₁ =>
      obtain ⟨rfl, -⟩ := List.cons.inj hs
      exact h₁.subset (by simp)
  · intro ha
    exact (List.singleton_sublist.mpr ha).append (List.singleton_sublist.mpr (by simp))

variable {v : Volume} {d : ℕ} {L : List ℕ} {n : Name} {p : Slot}

theorem probeAt_skips (hend : ¬ (v.entryAt p).isEnd) (h : ¬ Answers (v.entryAt p) n) :
    probeAt v n p = none := by
  unfold probeAt Volume.probeEntry
  split_ifs with h0 hdel hmask hmatch
  · exact absurd h0 hend
  · rfl
  · rfl
  · exact absurd ⟨⟨hend, hdel, not_not.mp hmask⟩, (matchFilename_iff _ _).mp hmatch⟩ h
  · rfl

theorem probeAt_hits (h : Answers (v.entryAt p) n) : probeAt v n p = some (some p) := by
  unfold probeAt Volume.probeEntry
  split_ifs with h0 hdel hmask hmatch
  · exact absurd h0 h.1.used
  · exact absurd hdel h.1.kept
  · exact absurd h.1.shown hmask
  · rfl
  · exact absurd ((matchFilename_iff _ _).mpr h.2) hmatch

/-- A lookup takes the first slot that answers, before any end slot. -/
theorem finds_slots (hw : Working v) (hL : DirLbas v d L) : Finds v d n p ↔ ∃ l₁ l₂,
    slotsOf L = l₁++p::l₂ ∧ Answers (v.entryAt p) n ∧
      ∀ x ∈ l₁, ¬ (v.entryAt x).isEnd ∧ ¬ Answers (v.entryAt x) n := by
  unfold Finds
  rw [findDirEntry_slots hw hL]
  constructor
  · intro h
    have hf : (slotsOf L).findSome? (probeAt v n) = some (some p) := by
      cases hr : (slotsOf L).findSome? (probeAt v n) with
      | none => simp [hr] at h
      | some r => simpa [hr] using h
    obtain ⟨l₁, a, l₂, hl, ha, hskip⟩ := List.findSome?_eq_some_iff.mp hf
    obtain ⟨rfl, hsh, hname⟩ := probeAt_found ha
    refine ⟨l₁, l₂, hl, ⟨hsh, hname⟩, fun x hx => ?_⟩
    obtain ⟨hend, hno⟩ := probeAt_skip (hskip x hx)
    exact ⟨hend, fun h => hno h.1 h.2⟩
  · rintro ⟨l₁, l₂, hl, hp, hbefore⟩
    have hf : (slotsOf L).findSome? (probeAt v n) = some (some p) :=
      List.findSome?_eq_some_iff.mpr ⟨l₁, p, l₂, hl, probeAt_hits hp, fun x hx =>
        probeAt_skips (hbefore x hx).1 (hbefore x hx).2⟩
    rw [hf]
    rfl

end Slots

/-- Slot `q` gets the entry `e` and the slot `old` is marked as deleted. -/
structure Rewrites (u w : Volume) (old : Option Slot) (q : Slot) (e : DirEntry) : Prop where
  bpb : w.bpb = u.bpb
  fat : ∀ x, w.fat x = u.fat x
  entry : ∀ a p, InDir u a p → w.entryAt p = if p = q then e
    else if p ∈ old then (u.entryAt p).markDeleted else u.entryAt p
  data : ∀ lba, ¬ fatRegion u.bpb lba → lba ≠ q.1 → (∀ p ∈ old, lba ≠ p.1) →
    w.disk.data lba = u.disk.data lba

section Rewritten

variable {u w : Volume} {old : Option Slot} {q x : Slot} {e : DirEntry} {d a : ℕ} {n : Name}
  {L : List ℕ} (hu : Working u) (hww : Working w) (hq : FreeSlot u d q)
  (h : Rewrites u w old q e) (he : ¬ e.isEnd)

include hq in
theorem answers_not_free {y : Slot} (hy : Answers (u.entryAt y) n) : y ≠ q := by
  rintro rfl
  rcases hq.free with hf | hf
  · exact hy.1.used hf
  · exact hy.1.kept hf

include h in
theorem rewrites_other (hL : DirLbas u a L) (hx : x ∈ slotsOf L) (hne : x ≠ q) (hold : x ∉ old) :
    w.entryAt x = u.entryAt x := by
  rw [h.entry a x ⟨L, hL, hx⟩, if_neg hne, if_neg hold]

include h in
theorem rewrites_new (hin : InDir u a q) : w.entryAt q = e := by
  rw [h.entry a q hin, if_pos rfl]

include hww h he

omit hww in
/-- A slot that no lookup of the name stopped at still lets it pass. -/
theorem rewrites_skips (hL : DirLbas u a L) {y : Slot} (hy : y ∈ slotsOf L)
    (hend : ¬ (u.entryAt y).isEnd) (hno : ¬ Answers (u.entryAt y) n ∨ y ∈ old)
    (hqe : y = q → ¬ Answers e n) : ¬ (w.entryAt y).isEnd ∧ ¬ Answers (w.entryAt y) n := by
  rw [h.entry a y ⟨L, hL, hy⟩]
  split_ifs with hyq hyo
  · exact ⟨he, hqe hyq⟩
  · exact ⟨markDeleted_not_end _, fun ha => ha.1.kept (markDeleted_deleted _)⟩
  · exact ⟨hend, hno.resolve_right hyo⟩

/-- The new entry is found when nothing before it answers. -/
theorem rewrites_found (hL : DirLbas u a L) {l₁ l₂ : List Slot} (hl : slotsOf L = l₁++q::l₂)
    (hbefore : ∀ y ∈ l₁, ¬ (u.entryAt y).isEnd ∧ (¬ Answers (u.entryAt y) n ∨ y ∈ old))
    (ha : Answers e n) : Finds w a n q := by
  have hqm : q ∈ slotsOf L := by simp [hl]
  have hqn : q ∉ l₁ := by
    have hnd := slotsOf_nodup (dirLbas_nodup hL)
    rw [hl] at hnd
    exact fun hm => (List.nodup_append.mp hnd).2.2 q hm q (by simp) rfl
  refine (finds_slots hww ((rewrite_dirLbas h.bpb h.fat).mpr hL)).mpr ⟨l₁, l₂, hl, ?_, fun y hy => ?_⟩
  · rw [rewrites_new h ⟨L, hL, hqm⟩]
    exact ha
  · refine rewrites_skips h he hL (by simp [hl, hy]) (hbefore y hy).1 (hbefore y hy).2 ?_
    rintro rfl
    exact absurd hy hqn

omit he in
/-- What is found now is the new entry or was shown under the name before. -/
theorem rewrites_back (hL : DirLbas u a L) (hf : Finds w a n x) :
    x ∈ slotsOf L ∧ (x = q ∧ Answers e n ∨ x ≠ q ∧ x ∉ old ∧ Answers (u.entryAt x) n) := by
  obtain ⟨l₁, l₂, hl, ha, -⟩ := (finds_slots hww ((rewrite_dirLbas h.bpb h.fat).mpr hL)).mp hf
  have hx : x ∈ slotsOf L := by simp [hl]
  rw [h.entry a x ⟨L, hL, hx⟩] at ha
  refine ⟨hx, ?_⟩
  split_ifs at ha with hxq hxo
  · exact Or.inl ⟨hxq, ha⟩
  · exact absurd (markDeleted_deleted _) ha.1.kept
  · exact Or.inr ⟨hxq, hxo, ha⟩

include hu hq

/-- An entry is found as before, unless the new one comes before it with its name. -/
theorem rewrites_keeps (hL : DirLbas u a L) (hf : Finds u a n x) (hold : x ∉ old)
    (hclash : [q, x].Sublist (slotsOf L) → ¬ Answers e n) : Finds w a n x := by
  obtain ⟨l₁, l₂, hl, ha, hbefore⟩ := (finds_slots hu hL).mp hf
  refine (finds_slots hww ((rewrite_dirLbas h.bpb h.fat).mpr hL)).mpr ⟨l₁, l₂, hl, ?_, fun y hy => ?_⟩
  · rw [rewrites_other h hL (by simp [hl]) (answers_not_free hq ha) hold]
    exact ha
  · refine rewrites_skips h he hL (by simp [hl, hy]) (hbefore y hy).1 (Or.inl (hbefore y hy).2) ?_
    rintro rfl
    have hnd := slotsOf_nodup (dirLbas_nodup hL)
    rw [hl] at hnd
    exact hclash (hl ▸ (pair_sublist hnd).mpr hy)

omit hq in
/-- Otherwise it is the new one that is found. -/
theorem rewrites_hides (hL : DirLbas u a L) (hf : Finds u a n x)
    (hbefore : [q, x].Sublist (slotsOf L)) (ha : Answers e n) : Finds w a n q := by
  obtain ⟨l₁, l₂, hl, -, hskip⟩ := (finds_slots hu hL).mp hf
  have hnd := slotsOf_nodup (dirLbas_nodup hL)
  rw [hl] at hbefore hnd
  obtain ⟨m₁, m₂, rfl⟩ := List.append_of_mem ((pair_sublist hnd).mp hbefore)
  rw [List.append_assoc, List.cons_append] at hl
  refine rewrites_found hww h he hL hl (fun y hy => ?_) ha
  exact ⟨(hskip y (by simp [hy])).1, Or.inl (hskip y (by simp [hy])).2⟩

omit hww hu he in
/-- The other entries keep their record, and the files their contents. -/
theorem rewrites_kept (hs : Sound u) (ha : Reachable u a) (hx : VisibleAt u a x) (hold : x ∉ old)
    (hin : ∀ p ∈ old, ∃ b, Reachable u b ∧ InDir u b p) : Kept u w x := by
  have hxq : x ≠ q := fun hh => freeSlot_not_visible hq (hh ▸ hx.2)
  obtain ⟨L, hL, hxL⟩ := hx.1
  refine ⟨rewrites_other h hL hxL hxq hold, fun hfile l hl =>
    ⟨(rewrite_chain h.bpb h.fat).mpr hl, fun lba hlba => h.data lba ?_ ?_ ?_⟩⟩
  · obtain ⟨c, hc, hm⟩ := List.mem_flatMap.mp hlba
    have hr := fatChain_range hl c hc
    exact fatRegion_not_cluster u.bpb hr.1 hr.2 hm
  · exact fun hh => dir_sector_file hs hq.reachable (freeSlot_inDir hq) ha hx hfile hl (hh ▸ hlba)
  · intro p hp hh
    obtain ⟨b, hb, hpb⟩ := hin p hp
    exact dir_sector_file hs hb hpb ha hx hfile hl (hh ▸ hlba)

end Rewritten

/-- A free slot of `b` is found, which may lengthen the directory, and `e` put in it. -/
structure Places (b u w : Volume) (dir : ℕ) (old : Option Slot) (q : Slot) (e : DirEntry) : Prop where
  workingB : Working b
  workingU : Working u
  workingW : Working w
  sound : Sound b
  grows : Grows b u
  slot : FreeSlot u dir q
  first : ∀ L, DirLbas b dir L → (u = b ∧ ∃ l₁ l₂, slotsOf L = l₁++q::l₂ ∧
      ∀ p ∈ l₁, ¬ (b.entryAt p).isEnd ∧ ¬ (b.entryAt p).isDeleted) ∨
    ((u.entryAt q).isEnd ∧ ∀ p ∈ slotsOf L, ¬ (b.entryAt p).isEnd ∧ ¬ (b.entryAt p).isDeleted)
  slots : ∀ a p, Reachable b a → InDir b a p → InDir u a p ∧ u.entryAt p = b.entryAt p
  rewrites : Rewrites u w old q e
  used : ¬ e.isEnd
  listed : ∀ p ∈ old, ∃ a, Reachable b a ∧ InDir b a p

/-- A slot that is deleted comes before the entry. -/
def BehindFree (v : Volume) (d : ℕ) (x : Slot) : Prop :=
  ∃ y, Precedes v d y x ∧ (v.entryAt y).isDeleted

section Placed

variable {b u w : Volume} {dir a : ℕ} {old : Option Slot} {q x : Slot} {e : DirEntry} {n : Name}
  (h : Places b u w dir old q e)
include h

theorem places_finds (ha : Reachable b a) (hn : NotDots n) :
    Finds u a n x ↔ Finds b a n x := by
  rw [finds_iff h.workingU h.grows.sound ((h.grows.reach a).mpr ha) hn,
    finds_iff h.workingB h.sound ha hn, h.grows.visible a x ha]
  exact and_congr_right fun hx => by rw [(h.grows.kept a x ha hx).entry]

/-- The new entry comes before another one exactly when a deleted slot did. -/
theorem places_before (hx : VisibleAt b dir x) {L : List ℕ} (hL : DirLbas u dir L) :
    [q, x].Sublist (slotsOf L) ↔ BehindFree b dir x := by
  have hd : Reachable b dir := (h.grows.reach dir).mp h.slot.reachable
  obtain ⟨M, hM⟩ := reachable_lbas h.sound hd
  have hxu := (h.grows.visible dir x hd).mpr hx
  rcases h.first M hM with ⟨rfl, l₁, l₂, hl, hused⟩ | ⟨hend, hused⟩
  · obtain rfl := dirLbas_unique hL hM
    have hnd := slotsOf_nodup (dirLbas_nodup hL)
    obtain ⟨N, hN, hxN⟩ := hx.1
    obtain rfl := dirLbas_unique hN hL
    constructor
    · intro hb
      refine ⟨q, ⟨N, hL, hb⟩, h.slot.free.resolve_left fun hend => ?_⟩
      exact hx.2.used (List.pairwise_iff_forall_sublist.mp (h.sound.ended dir N hd hL) hb hend)
    · rintro ⟨y, ⟨K, hK, hy⟩, hdel⟩
      obtain rfl := dirLbas_unique hK hL
      have hy1 : y ∉ l₁ := fun hm => (hused y hm).2 hdel
      -- `y` is the new slot or behind it
      rw [hl] at hy ⊢
      obtain ⟨s₁, s₂, hs, h₁, h₂⟩ := List.sublist_append_iff.mp hy
      cases s₁ with
      | cons c s₁ =>
        obtain ⟨rfl, -⟩ := List.cons.inj hs
        exact absurd (h₁.subset (by simp)) hy1
      | nil =>
        rw [List.nil_append] at hs
        rw [← hs] at h₂
        refine List.Sublist.trans ?_ (List.sublist_append_right l₁ (q::l₂))
        refine List.Sublist.cons_cons q (List.singleton_sublist.mpr ?_)
        cases h₂ with
        | cons _ h₂ => exact h₂.subset (by simp)
        | cons_cons _ h₂ => exact h₂.subset (by simp)
  · constructor
    · intro hb
      have hxe := List.pairwise_iff_forall_sublist.mp (h.grows.sound.ended dir L
        h.slot.reachable hL) hb hend
      exact absurd hxe hxu.2.used
    · rintro ⟨y, ⟨K, hK, hy⟩, hdel⟩
      obtain rfl := dirLbas_unique hK hM
      exact absurd hdel (hused y (hy.subset (by simp))).2

theorem places_entry (hx : VisibleAt b a x) (ha : Reachable b a) (hold : x ∉ old) :
    w.entryAt x = b.entryAt x := by
  have hxu := (h.grows.visible a x ha).mpr hx
  have hxq : x ≠ q := fun hh => freeSlot_not_visible h.slot (hh ▸ hxu.2)
  obtain ⟨L, hL, hxL⟩ := hxu.1
  rw [rewrites_other h.rewrites hL hxL hxq hold, (h.grows.kept a x ha hx).entry]

/-- An entry is found as before unless the new one hides it. -/
theorem places_keeps (ha : Reachable b a) (hn : NotDots n) (hf : Finds b a n x) (hold : x ∉ old)
    (hclash : a = dir → Answers e n → ¬ BehindFree b dir x) : Finds w a n x := by
  have hx := ((finds_iff h.workingB h.sound ha hn).mp hf).1
  have hau := (h.grows.reach a).mpr ha
  obtain ⟨L, hL⟩ := reachable_lbas h.grows.sound hau
  refine rewrites_keeps h.workingU h.workingW h.slot h.rewrites h.used hL
    ((places_finds h ha hn).mpr hf) hold fun hb hans => ?_
  obtain rfl := inDir_unique h.grows.sound hau h.slot.reachable ⟨L, hL, hb.subset (by simp)⟩
    (freeSlot_inDir h.slot)
  exact hclash rfl hans ((places_before h hx hL).mp hb)

theorem places_hides (hd : Reachable b dir) (hn : NotDots n) (hf : Finds b dir n x)
    (hans : Answers e n) (hfree : BehindFree b dir x) : Finds w dir n q := by
  have hx := ((finds_iff h.workingB h.sound hd hn).mp hf).1
  obtain ⟨L, hL⟩ := reachable_lbas h.grows.sound h.slot.reachable
  exact rewrites_hides h.workingU h.workingW h.rewrites h.used hL ((places_finds h hd hn).mpr hf)
    ((places_before h hx hL).mpr hfree) hans

/-- A name that only the moved entry may have had leads to the new entry. -/
theorem places_found (habs : ∀ y, InDir u dir y → Answers (u.entryAt y) n → y ∈ old)
    (hans : Answers e n) : Finds w dir n q := by
  obtain ⟨L, l₁, l₂, hL, hl, hbefore⟩ := h.slot.first
  refine rewrites_found h.workingW h.rewrites h.used hL hl (fun y hy => ⟨hbefore y hy, ?_⟩) hans
  by_cases ha : Answers (u.entryAt y) n
  · exact Or.inr (habs y ⟨L, hL, by simp [hl, hy]⟩ ha)
  · exact Or.inl ha

/-- What is found now is the new entry or what was found before. -/
theorem places_back (ha : Reachable b a) (hn : NotDots n) (hf : Finds w a n x) :
    x = q ∧ Answers e n ∨ Finds b a n x ∧ x ∉ old := by
  have hau := (h.grows.reach a).mpr ha
  obtain ⟨L, hL⟩ := reachable_lbas h.grows.sound hau
  obtain ⟨hx, ⟨hq, hans⟩ | ⟨-, hold, hans⟩⟩ := rewrites_back h.workingW h.rewrites hL hf
  · exact Or.inl ⟨hq, hans⟩
  · have hv : VisibleAt u a x := ⟨⟨L, hL, hx⟩, notDots_visible hn hans.1 hans.2⟩
    exact Or.inr ⟨(places_finds h ha hn).mp
      ((finds_iff h.workingU h.grows.sound hau hn).mpr ⟨hv, hans.2⟩), hold⟩

theorem places_kept (ha : Reachable b a) (hx : VisibleAt b a x) (hold : x ∉ old) : Kept b w x := by
  have hk := h.grows.kept a x ha hx
  refine kept_trans h.grows.bpb hk (rewrites_kept h.slot h.rewrites h.grows.sound
    ((h.grows.reach a).mpr ha) ((h.grows.visible a x ha).mpr hx) hold fun p hp => ?_)
  obtain ⟨c, hc, hpc⟩ := h.listed p hp
  exact ⟨c, (h.grows.reach c).mpr hc, (h.slots c p hc hpc).1⟩

end Placed

end Vlsmc.DirectoryEdits
