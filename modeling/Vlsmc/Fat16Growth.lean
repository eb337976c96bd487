import Vlsmc.Fat16Updates

/-!
# Growing directories

What a change leaves in place: every visible entry keeps its record, and every
file keeps its clusters and their contents. Writing free clusters and appending
a cleared cluster to a full directory are changes of this kind, so the search
for a free slot is too.
-/

set_option autoImplicit false

namespace Vlsmc.Fat16Growth
open Vlsmc.Fat16Layout Vlsmc.Fat16Names Vlsmc.Fat16Volume Vlsmc.Fat16Geometry
open Vlsmc.Fat16Chains Vlsmc.Fat16Directory Vlsmc.Fat16Soundness Vlsmc.Fat16Updates
open Vlsmc.SuccessorChain

/-- The sectors of the listed clusters are unchanged. -/
def SameData (v w : Volume) (l : List ℕ) : Prop :=
  ∀ lba ∈ chainLbas v.bpb l, w.disk.data lba = v.disk.data lba

/-- An entry keeps its record, and a file also its clusters with their contents. -/
structure Kept (v w : Volume) (p : Slot) : Prop where
  entry : w.entryAt p = v.entryAt p
  chain : ¬ (v.entryAt p).isDirectory → ∀ l, FatChain v (v.entryAt p).cluster l →
    FatChain w (v.entryAt p).cluster l ∧ SameData v w l

/-- A chain that belongs to no reachable entry. -/
def Loose (v : Volume) (c : ℕ) (l : List ℕ) : Prop := FatChain v c l ∧ ∀ x ∈ l, ¬ Owned v x

/-- `w` shows the same tree as `v`, except that directories may be longer. -/
structure Grows (v w : Volume) : Prop where
  bpb : w.bpb = v.bpb
  sound : Sound w
  reach : ∀ d, Reachable w d ↔ Reachable v d
  visible : ∀ d p, Reachable v d → (VisibleAt w d p ↔ VisibleAt v d p)
  kept : ∀ d p, Reachable v d → VisibleAt v d p → Kept v w p
  loose : ∀ c l, Loose v c l → Loose w c l ∧ SameData v w l

theorem sameData_trans {u v w : Volume} {l : List ℕ} (hb : v.bpb = u.bpb)
    (h : SameData u v l) (h' : SameData v w l) : SameData u w l := fun lba hl => by
  rw [h' lba (by rwa [hb]), h lba hl]

theorem kept_trans {u v w : Volume} {p : Slot} (hb : v.bpb = u.bpb) (h : Kept u v p)
    (h' : Kept v w p) : Kept u w p := by
  refine ⟨h'.entry.trans h.entry, fun hdir l hl => ?_⟩
  obtain ⟨hl1, hd1⟩ := h.chain hdir l hl
  rw [← h.entry] at hdir hl1
  obtain ⟨hl2, hd2⟩ := h'.chain hdir l hl1
  rw [h.entry] at hl2
  exact ⟨hl2, sameData_trans hb hd1 hd2⟩

theorem grows_refl {v : Volume} (hs : Sound v) : Grows v v where
  bpb := rfl
  sound := hs
  reach := fun _ => Iff.rfl
  visible := fun _ _ _ => Iff.rfl
  kept := fun _ _ _ _ => ⟨rfl, fun _ _ hl => ⟨hl, fun _ _ => rfl⟩⟩
  loose := fun _ _ hl => ⟨hl, fun _ _ => rfl⟩

theorem grows_trans {u v w : Volume} (h : Grows u v) (h' : Grows v w) : Grows u w where
  bpb := h'.bpb.trans h.bpb
  sound := h'.sound
  reach := fun d => (h'.reach d).trans (h.reach d)
  visible := fun d p hd => (h'.visible d p ((h.reach d).mpr hd)).trans (h.visible d p hd)
  kept := fun d p hd hp => kept_trans h.bpb (h.kept d p hd hp)
    (h'.kept d p ((h.reach d).mpr hd) ((h.visible d p hd).mpr hp))
  loose := fun c l hl => by
    obtain ⟨h1, d1⟩ := h.loose c l hl
    obtain ⟨h2, d2⟩ := h'.loose c l h1
    exact ⟨h2, sameData_trans h.bpb d1 d2⟩

section Free

variable {v w : Volume} (hs : Sound v) (hb : w.bpb = v.bpb)
  (hfat : ∀ x, v.fat x ≠ 0 → w.fat x = v.fat x)
  (hdata : ∀ x, InRange v.bpb x → v.fat x ≠ 0 → ∀ lba ∈ v.bpb.clusterLbas x,
    w.disk.data lba = v.disk.data lba)
  (hroot : ∀ lba ∈ v.bpb.rootLbas, w.disk.data lba = v.disk.data lba)
include hb hfat hdata hroot

theorem sameTree_of_free : SameTree v w := ⟨hb, fun c hc => hfat c (owned_fat hc),
  fun c hc => hdata c (owned_range hc) (owned_fat hc), hroot⟩

include hs

/-- Clusters whose table entry is zero may be taken and written. -/
theorem grows_of_free : Grows v w := by
  have ht : SameTree v w := sameTree_of_free hb hfat hdata hroot
  have hsame : ∀ c l, FatChain v c l → SameData v w l := by
    intro c l hl lba hlba
    obtain ⟨x, hx, hm⟩ := List.mem_flatMap.mp hlba
    exact hdata x (fatChain_range hl x hx) (fatChain_fat_ne_zero hl x hx) lba hm
  refine ⟨hb, sound_frame hs ht, sameTree_reachable hs ht, fun d p => sameTree_visible hs ht,
    fun d p hd hp => ⟨sameTree_entry ht hd hp.1, fun _ l hl => ?_⟩, fun c l hl => ?_⟩
  · exact ⟨sameTree_chain ht hd hp hl, hsame _ l hl⟩
  · refine ⟨⟨fatChain_congr hb hl.1 fun x hx => hfat x (fatChain_fat_ne_zero hl.1 x hx),
      fun x hx ho => hl.2 x hx ((sameTree_owned hs ht x).mp ho)⟩, hsame c l hl.1⟩

end Free

theorem freeSlot_sameTree {v w : Volume} {d : ℕ} {q : Slot} (hs : Sound v) (ht : SameTree v w)
    (hq : FreeSlot v d q) : FreeSlot w d q := by
  obtain ⟨L, l₁, l₂, hL, hl, hbefore⟩ := hq.first
  have hent : ∀ p ∈ slotsOf L, w.entryAt p = v.entryAt p := fun p hp =>
    sameTree_entry ht hq.reachable ⟨L, hL, hp⟩
  refine ⟨(sameTree_reachable hs ht d).mpr hq.reachable, ?_, L, l₁, l₂,
    (sameTree_dirLbas hs ht hq.reachable).mpr hL, hl, fun p hp => ?_⟩
  · rw [hent q (by simp [hl])]
    exact hq.free
  · rw [hent p (by simp [hl, hp])]
    exact hbefore p hp

theorem grows_flush {v : Volume} (hs : Sound v) : Grows v v.flushFat := by
  refine grows_of_free hs rfl (fun _ _ => rfl) (fun x hx _ lba hlba => ?_) fun lba hlba => ?_
  · exact flushFat_frame v lba (fatRegion_not_cluster v.bpb hx.1 hx.2 hlba)
  · exact flushFat_frame v lba (fatRegion_not_root v.bpb hlba)

section Extend

variable {v w : Volume} {d : ℕ} {t : List ℕ} {c : ℕ} (hs : Sound v) (hd : Reachable v d)
  (h2 : 2 ≤ d) (ht : FatChain v d (d::t)) (hc : InRange v.bpb c) (h0 : v.fat c = 0)
  (hb : w.bpb = v.bpb) (hlast : w.fat ((d::t).getLast (by simp)) = c) (hnew : w.fat c = 0xFFFF)
  (hfat : ∀ x, x ≠ (d::t).getLast (by simp) → x ≠ c → w.fat x = v.fat x)

include ht hc h0 hb hlast hnew hfat in
theorem extend_chain : FatChain w d (d::t++[c]) := by
  have hcn : c ∉ d::t := fun hm => fatChain_fat_ne_zero ht c hm h0
  have hend : Linked w.fat (InRange w.bpb) IsLast c [c] := by
    refine ⟨rfl, by rwa [hb], ?_⟩
    rw [hnew]
    exact (by decide : 0xFFF8 ≤ 0xFFFF)
  have hold : Linked v.fat (InRange w.bpb) IsLast d (d::t) := by rwa [hb]
  refine linked_append hold (by simp) hlast (fun x hx => ?_) hend
  · have hnd := fatChain_nodup ht
    rw [← List.dropLast_append_getLast (l := d::t) (by simp)] at hnd
    have hne : x ≠ (d::t).getLast (by simp) := fun he =>
      (List.nodup_append.mp hnd).2.2 x hx _ (by simp) he
    exact hfat x hne fun he => hcn (he ▸ List.dropLast_subset _ hx)

include hs hd h2 ht h0 hb hfat in
/-- Only the entry of the grown directory gets a longer chain. -/
theorem extend_other {e : ℕ} {p : Slot} {l : List ℕ} (he : Reachable v e)
    (hp : VisibleAt v e p) (hl : FatChain v (v.entryAt p).cluster l) :
    ((v.entryAt p).cluster = d ∧ (v.entryAt p).isDirectory ∧ l = d::t) ∨
    ((v.entryAt p).cluster ≠ d ∧ l.Disjoint (d::t) ∧ FatChain w (v.entryAt p).cluster l) := by
  obtain ⟨e1, p1, he1, hp1, hdir, -, hcl⟩ := reachable_owner hd (by omega)
  by_cases hpp : p = p1
  · subst hpp
    exact Or.inl ⟨hcl, hdir, fatChain_unique hl (hcl ▸ ht)⟩
  · have hdis := hs.disjoint e p e1 p1 l (d::t) he hp he1 hp1 hpp hl (hcl ▸ ht)
    refine Or.inr ⟨fun h => ?_, hdis, fatChain_congr hb hl fun x hx => hfat x ?_ ?_⟩
    · have : l = d::t := fatChain_unique hl (h ▸ ht)
      exact hdis (a := d) (by simp [this]) (by simp)
    · exact fun h => hdis hx (h ▸ List.getLast_mem _)
    · exact fun h => fatChain_fat_ne_zero hl x hx (h ▸ h0)

include hs hd h2 ht hc h0 hb hlast hnew hfat in
theorem extend_dirLbas {e : ℕ} {L : List ℕ} (he : Reachable v e) (hL : DirLbas v e L) :
    DirLbas w e (if e = d then L++v.bpb.clusterLbas c else L) := by
  rcases hL with ⟨rfl, rfl⟩ | ⟨hge, m, hm, rfl⟩
  · rw [if_neg (by omega)]
    exact Or.inl ⟨rfl, by rw [hb]⟩
  · obtain ⟨e1, p1, he1, hp1, -, -, rfl⟩ := reachable_owner he (by omega)
    rcases extend_other hs hd h2 ht h0 hb hfat he1 hp1 hm with ⟨hcl, -, hml⟩ | ⟨hne, -, hw⟩
    · rw [if_pos hcl, hcl]
      refine Or.inr ⟨h2, t++[c], extend_chain ht hc h0 hb hlast hnew hfat, ?_⟩
      rw [hb, hcl.symm.trans (List.head_eq_of_cons_eq hml), (List.cons.inj hml).2]
      simp [chainLbas]
    · rw [if_neg hne]
      exact Or.inr ⟨hge, m, hw, by rw [hb]⟩

variable (hdata : ∀ lba, ¬ fatRegion v.bpb lba → lba ∉ v.bpb.clusterLbas c →
    w.disk.data lba = v.disk.data lba)
  (hzero : ∀ lba ∈ v.bpb.clusterLbas c, w.disk.data lba = zeroSector)

include hc h0 hdata in
theorem extend_sameData {e : ℕ} {l : List ℕ} (hl : FatChain v e l) : SameData v w l := by
  intro lba hlba
  obtain ⟨x, hx, hm⟩ := List.mem_flatMap.mp hlba
  have hr := fatChain_range hl x hx
  have hxc : x ≠ c := fun h => fatChain_fat_ne_zero hl x hx (h ▸ h0)
  exact hdata lba (fatRegion_not_cluster v.bpb hr.1 hr.2 hm) fun hmc =>
    clusterLbas_disjoint v.bpb hr.1 hr.2 hc.1 hc.2 hxc hm hmc

include hc h0 hdata in
theorem extend_entry {e : ℕ} {L : List ℕ} {p : Slot} (hL : DirLbas v e L) (hp : p ∈ slotsOf L) :
    w.entryAt p = v.entryAt p := by
  have hm := (mem_slotsOf.mp hp).1
  have hsame : w.disk.data p.1 = v.disk.data p.1 := by
    rcases hL with ⟨-, rfl⟩ | ⟨-, m, hm', rfl⟩
    · exact hdata _ (fatRegion_not_root v.bpb hm) fun h => root_not_cluster v.bpb hc.1 hc.2 h hm
    · exact extend_sameData hc h0 hdata hm' _ hm
  rw [Volume.entryAt, hsame, Volume.entryAt]

include hzero in
theorem extend_cleared {p : Slot} (hp : p ∈ slotsOf (v.bpb.clusterLbas c)) :
    (w.entryAt p).isEnd := by
  rw [Volume.entryAt, hzero _ (mem_slotsOf.mp hp).1]
  exact getEntry_zero _

include hs hd h2 ht hc h0 hb hlast hnew hfat hdata hzero

theorem extend_visible {e : ℕ} {p : Slot} (he : Reachable v e) :
    VisibleAt w e p ↔ VisibleAt v e p := by
  obtain ⟨L, hL⟩ := reachable_lbas hs he
  have hLw := extend_dirLbas hs hd h2 ht hc h0 hb hlast hnew hfat he hL
  constructor
  · rintro ⟨⟨M, hM, hp⟩, hv⟩
    rw [dirLbas_unique hM hLw] at hp
    have hpL : p ∈ slotsOf L := by
      split_ifs at hp
      · rw [slotsOf_append] at hp
        rcases List.mem_append.mp hp with hp | hp
        · exact hp
        · exact absurd (extend_cleared hzero hp) hv.used
      · exact hp
    exact ⟨⟨L, hL, hpL⟩, extend_entry hc h0 hdata hL hpL ▸ hv⟩
  · rintro ⟨⟨M, hM, hp⟩, hv⟩
    rw [dirLbas_unique hM hL] at hp
    refine ⟨⟨_, hLw, ?_⟩, by rwa [extend_entry hc h0 hdata hL hp]⟩
    split_ifs
    · rw [slotsOf_append]
      exact List.mem_append_left _ hp
    · exact hp

theorem extend_reachable (e : ℕ) : Reachable w e ↔ Reachable v e := by
  apply reachable_congr
  intro e he e'
  have hvis := fun p => extend_visible hs hd h2 ht hc h0 hb hlast hnew hfat hdata hzero
    (p := p) he
  have hent : ∀ p, VisibleAt v e p → w.entryAt p = v.entryAt p := by
    rintro p ⟨⟨L, hL, hp⟩, -⟩
    exact extend_entry hc h0 hdata hL hp
  constructor
  · rintro ⟨p, hp, hr⟩
    have hp' := (hvis p).mp hp
    exact ⟨p, hp', hent p hp' ▸ hr⟩
  · rintro ⟨p, hp, hr⟩
    exact ⟨p, (hvis p).mpr hp, by rwa [hent p hp]⟩

omit hdata hzero in
/-- The chain of an entry afterwards. -/
theorem extend_chain_back {e : ℕ} {p : Slot} {l : List ℕ} (he : Reachable v e)
    (hp : VisibleAt v e p) (hl : FatChain w (v.entryAt p).cluster l) :
    ∃ m, FatChain v (v.entryAt p).cluster m ∧
      (l = m ∨ (l = m++[c] ∧ (v.entryAt p).cluster = d)) := by
  by_cases hge : 2 ≤ (v.entryAt p).cluster
  · obtain ⟨m, hm⟩ := hs.chains e p he hp hge
    refine ⟨_, hm, ?_⟩
    rcases extend_other hs hd h2 ht h0 hb hfat he hp hm with ⟨hcl, -, hml⟩ | ⟨-, -, hw⟩
    · rw [hcl] at hl hml ⊢
      refine Or.inr ⟨?_, rfl⟩
      rw [fatChain_unique hl (extend_chain ht hc h0 hb hlast hnew hfat), hml]
    · exact Or.inl (fatChain_unique hl hw)
  · cases l with
    | nil => exact ⟨[], hl, Or.inl rfl⟩
    | cons x l =>
      have h1 := hl.2.1.1
      have h3 := hl.1
      omega

/-- A full directory gets a cleared cluster. -/
theorem grows_extend : Grows v w := by
  have hreach := extend_reachable hs hd h2 ht hc h0 hb hlast hnew hfat hdata hzero
  have hvis := fun e p (he : Reachable v e) =>
    extend_visible hs hd h2 ht hc h0 hb hlast hnew hfat hdata hzero (p := p) he
  have hback := fun e p l (he : Reachable v e) (hp : VisibleAt v e p) =>
    extend_chain_back hs hd h2 ht hc h0 hb hlast hnew hfat (l := l) he hp
  have hent : ∀ e p, VisibleAt v e p → w.entryAt p = v.entryAt p := by
    rintro e p ⟨⟨L, hL, hp⟩, -⟩
    exact extend_entry hc h0 hdata hL hp
  have hcn : ∀ a l, FatChain v a l → c ∉ l := fun a l hl hm => fatChain_fat_ne_zero hl c hm h0
  have hsound : Sound w := by
    constructor
    · intro e p he hp hge
      have he' := (hreach e).mp he
      have hp' := (hvis e p he').mp hp
      rw [hent e p hp'] at hge ⊢
      obtain ⟨m, hm⟩ := hs.chains e p he' hp' hge
      rcases extend_other hs hd h2 ht h0 hb hfat he' hp' hm with ⟨hcl, -, -⟩ | ⟨-, -, hw⟩
      · rw [hcl]
        exact ⟨t++[c], extend_chain ht hc h0 hb hlast hnew hfat⟩
      · exact ⟨m, hw⟩
    · intro e p e' p' l l' he hp he' hp' hne hl hl'
      have he := (hreach e).mp he
      have he' := (hreach e').mp he'
      have hp := (hvis e p he).mp hp
      have hp' := (hvis e' p' he').mp hp'
      rw [hent e p hp] at hl
      rw [hent e' p' hp'] at hl'
      obtain ⟨m, hm, hlm⟩ := hback e p l he hp hl
      obtain ⟨m', hm', hlm'⟩ := hback e' p' l' he' hp' hl'
      have hdis := hs.disjoint e p e' p' m m' he hp he' hp' hne hm hm'
      have hcm := hcn _ m hm
      have hcm' := hcn _ m' hm'
      rcases hlm with rfl | ⟨rfl, hcl⟩ <;> rcases hlm' with rfl | ⟨rfl, hcl'⟩
      · exact hdis
      · exact List.disjoint_append_right.mpr ⟨hdis, by simpa using hcm⟩
      · exact List.disjoint_append_left.mpr ⟨hdis, by simpa using hcm'⟩
      · rw [hcl] at hm
        rw [hcl'] at hm'
        rw [fatChain_unique hm ht, fatChain_unique hm' ht] at hdis
        exact absurd (List.mem_cons_self (a := d) (l := t)) (fun h => hdis h h)
    · intro e L he hL
      have he := (hreach e).mp he
      obtain ⟨M, hM⟩ := reachable_lbas hs he
      rw [dirLbas_unique hL (extend_dirLbas hs hd h2 ht hc h0 hb hlast hnew hfat he hM)]
      have hM' : EndedBy w.entryAt M :=
        ended_congr (hs.ended e M he hM) fun p hp => extend_entry hc h0 hdata hM hp
      split_ifs
      · unfold Ended
        rw [slotsOf_append, List.pairwise_append]
        refine ⟨hM', List.pairwise_of_forall_mem_list fun a _ b hbm _ => ?_, fun a _ b hbm _ => ?_⟩
        · exact extend_cleared hzero hbm
        · exact extend_cleared hzero hbm
      · exact hM'
    · intro e p q he hp hq hn
      have he := (hreach e).mp he
      have hp := (hvis e p he).mp hp
      have hq := (hvis e q he).mp hq
      rw [hent e p hp, hent e q hq] at hn
      exact hs.names e p q he hp hq hn
  refine ⟨hb, hsound, hreach, hvis, fun e p he hp => ⟨hent e p hp, fun hfile l hl => ?_⟩,
    fun a l hl => ?_⟩
  · rcases extend_other hs hd h2 ht h0 hb hfat he hp hl with ⟨-, hdir, -⟩ | ⟨-, -, hw⟩
    · exact absurd hdir hfile
    · exact ⟨hw, extend_sameData hc h0 hdata hl⟩
  · have hown : ∀ x ∈ l, x ∉ d::t := fun x hx hxt => hl.2 x hx (dir_owned hd h2 ht x hxt)
    have hcl := hcn a l hl.1
    refine ⟨⟨fatChain_congr hb hl.1 fun x hx => hfat x ?_ ?_, fun x hx ho => ?_⟩,
      extend_sameData hc h0 hdata hl.1⟩
    · exact fun h => hown x hx (h ▸ List.getLast_mem _)
    · exact fun h => hcl (h ▸ hx)
    · obtain ⟨e, p, k, he, hp, hk, hxk⟩ := ho
      have he := (hreach e).mp he
      have hp := (hvis e p he).mp hp
      rw [hent e p hp] at hk
      obtain ⟨m, hm, rfl | ⟨rfl, -⟩⟩ := hback e p k he hp hk
      · exact hl.2 x hx ⟨e, p, _, he, hp, hm, hxk⟩
      · rcases List.mem_append.mp hxk with hxm | hxc
        · exact hl.2 x hx ⟨e, p, m, he, hp, hm, hxm⟩
        · exact hcl (by simpa using (List.mem_singleton.mp hxc) ▸ hx)

end Extend

theorem working_congr {v w : Volume} (hw : Working v) (hb : w.bpb = v.bpb)
    (hm : w.mounted = v.mounted) (hd : w.disk.size = v.disk.size) : Working w := by
  refine ⟨hm.trans hw.mounted, ?_, ?_⟩
  · rw [hb]
    exact hw.cluster
  · rw [hb, hd]
    exact hw.accepts

section Search

variable {v : Volume} (hw : Working v) (hs : Sound v)

/-- The first hit of the search in a list of slots is the first free slot. -/
theorem freeSlot_of_search {d : ℕ} {L : List ℕ} {q : Slot} (hd : Reachable v d)
    (hL : DirLbas v d L) (h : (slotsOf L).findSome? (freeAt v) = some q) : FreeSlot v d q := by
  obtain ⟨l₁, a, l₂, hl, ha, hskip⟩ := List.findSome?_eq_some_iff.mp h
  obtain ⟨rfl, hfree⟩ := freeAt_some ha
  exact ⟨hd, hfree, L, l₁, l₂, hL, hl, fun p hp => (freeAt_none (hskip p hp)).1⟩

theorem slotsOf_cons (lba : ℕ) (L : List ℕ) :
    ∃ l, slotsOf (lba::L) = (lba, 0)::l := by
  rw [slotsOf, List.flatMap_cons, entriesPerSector, List.range_succ_eq_map]
  exact ⟨_, rfl⟩

theorem clusterLbas_first {b : Bpb} {c : ℕ} (h2 : 2 ≤ c) (hc : c < b.total) (hpos : 1 ≤ b.spc) :
    ∃ l, b.clusterLbas c = b.clusterToLba c::l := by
  obtain ⟨n, hn⟩ : ∃ n, b.spc = n+1 := ⟨b.spc-1, by omega⟩
  rw [clusterLbas_eq b h2 hc, clusterToLba_eq b h2 hc, hn, List.range_succ_eq_map]
  exact ⟨_, rfl⟩

/-- What a full directory with the last cluster `last` becomes, when `c` was the first free
cluster. -/
structure Extended (v w : Volume) (last c : ℕ) : Prop where
  range : InRange v.bpb c
  free : v.fat c = 0
  bpb : w.bpb = v.bpb
  mounted : w.mounted = v.mounted
  size : w.disk.size = v.disk.size
  table : ∀ x, w.fat x = if x = last then c else if x = c then 0xFFFF else v.fat x
  data : ∀ lba, ¬ fatRegion v.bpb lba → lba ∉ v.bpb.clusterLbas c →
    w.disk.data lba = v.disk.data lba
  zero : ∀ lba ∈ v.bpb.clusterLbas c, w.disk.data lba = zeroSector
  flushed : Flushed w

include hw in
theorem extendDir_cases (last : ℕ) :
    v.extendDir last = (none, v) ∨ ∃ c w,
      v.extendDir last = (some (v.bpb.clusterToLba c, 0), w) ∧ Extended v w last c := by
  rcases allocCluster_cases v with ⟨ha, -⟩ | ⟨c, ha, hc, h0⟩
  · exact Or.inl (by simp [Volume.extendDir, ha])
  · right
    have hc2 := hc.1
    have hcr := hc.2
    have htot := total_le v.bpb
    -- the volume after the flush and the clearing writes
    let u := ((v.setFat c 0xFFFF).setFat last c).flushFat
    let w : Volume := { u with disk := u.disk.writeAll (Volume.clearWrites v.bpb c) }
    have hwu : Working ((v.setFat c 0xFFFF).setFat last c) := working_congr hw rfl rfl rfl
    have hother : ∀ lba, lba ∉ v.bpb.clusterLbas c → w.disk.data lba = u.disk.data lba := by
      intro lba hl
      refine writeAll_other _ _ _ fun x hx heq => hl ?_
      obtain ⟨a, ha, rfl⟩ := List.mem_map.mp hx
      exact heq ▸ ha
    refine ⟨c, w, ?_, hc, h0, rfl, rfl, by simp [w, u], fun x => ?_, fun lba hfr hl => ?_,
      fun lba hl => ?_, ?_⟩
    · obtain ⟨k, rfl⟩ : ∃ k, c = k+1 := ⟨c-1, by omega⟩
      simp only [Volume.extendDir, ha]
      rfl
    · have hfat : w.fat x = ((v.setFat c 0xFFFF).setFat last c).fat x := rfl
      rw [hfat, setFat_fat _ _ _ _ (by omega), setFat_fat _ _ _ _ (by decide)]
    · rw [hother lba hl]
      exact flushFat_frame _ lba hfr
    · have hlt := lt_of_lt_of_le (cluster_lt_dataEnd v.bpb hc2 hcr hl) hw.accepts
      apply writeAll_same
      · simpa [u] using hlt
      · intro x hx _
        obtain ⟨a, -, rfl⟩ := List.mem_map.mp hx
        rfl
      · exact Or.inr ⟨(lba, zeroSector), List.mem_map.mpr ⟨lba, hl, rfl⟩, rfl⟩
    · refine flushed_congr u (flushFat_flushed _ hwu) rfl rfl fun lba hl => hother lba fun hm => ?_
      exact fatRegion_not_cluster v.bpb hc2 hcr hm hl

section Extended

variable {w : Volume} {d c : ℕ} {t : List ℕ} (ht : FatChain v d (d::t))
  (h : Extended v w ((d::t).getLast (by simp)) c)
include ht h

theorem extended_last : (d::t).getLast (by simp) ≠ c := fun he =>
  fatChain_fat_ne_zero ht _ (List.getLast_mem _) (he ▸ h.free)

theorem extended_table : w.fat ((d::t).getLast (by simp)) = c ∧ w.fat c = 0xFFFF ∧
    ∀ x, x ≠ (d::t).getLast (by simp) → x ≠ c → w.fat x = v.fat x := by
  refine ⟨by rw [h.table, if_pos rfl], ?_, fun x h1 h3 => by rw [h.table, if_neg h1, if_neg h3]⟩
  rw [h.table, if_neg (Ne.symm (extended_last ht h)), if_pos rfl]

theorem extended_chain : FatChain w d (d::t++[c]) := by
  obtain ⟨hlast, hnew, hfat⟩ := extended_table ht h
  exact extend_chain ht h.range h.free h.bpb hlast hnew hfat

omit ht in
include hw in
/-- The new slots: the first is the one that is returned, and all are end slots. -/
theorem extended_slots : (∃ m, slotsOf (v.bpb.clusterLbas c) = (v.bpb.clusterToLba c, 0)::m) ∧
    ∀ p ∈ slotsOf (v.bpb.clusterLbas c), (w.entryAt p).isEnd := by
  obtain ⟨l, hl⟩ := clusterLbas_first h.range.1 h.range.2 hw.cluster
  obtain ⟨m, hm⟩ := slotsOf_cons (v.bpb.clusterToLba c) l
  exact ⟨⟨m, by rw [hl, hm]⟩, fun p hp => extend_cleared h.zero hp⟩

end Extended

include hw hs

/-- A directory without a free slot grows, unless the disk is full. -/
theorem extendDir_spec {d : ℕ} {t : List ℕ} (hf : Flushed v) (hd : Reachable v d) (h2 : 2 ≤ d)
    (ht : FatChain v d (d::t))
    (hfull : (slotsOf (chainLbas v.bpb (d::t))).findSome? (freeAt v) = none) :
    ∃ r w, v.extendDir ((d::t).getLast (by simp)) = (r, w) ∧ Working w ∧ Flushed w ∧
      Grows v w ∧ (∀ q, r = some q → FreeSlot w d q ∧ (w.entryAt q).isEnd) ∧
      ∀ a p, Reachable v a → InDir v a p → InDir w a p ∧ w.entryAt p = v.entryAt p := by
  rcases extendDir_cases hw ((d::t).getLast (by simp)) with hr | ⟨c, w, hr, hx⟩
  · exact ⟨none, v, hr, hw, hf, grows_refl hs, by simp, fun _ _ _ hp => ⟨hp, rfl⟩⟩
  · obtain ⟨hlast, hnew, hfat⟩ := extended_table ht hx
    have hgrow : Grows v w :=
      grows_extend hs hd h2 ht hx.range hx.free hx.bpb hlast hnew hfat hx.data hx.zero
    refine ⟨_, w, hr, working_congr hw hx.bpb hx.mounted hx.size, hx.flushed, hgrow, ?_, ?_⟩
    · rintro q ⟨rfl⟩
      obtain ⟨⟨m, hm⟩, hends⟩ := extended_slots hw hx
      have hslots : slotsOf (chainLbas w.bpb (d::t++[c])) =
          slotsOf (chainLbas v.bpb (d::t))++(v.bpb.clusterToLba c, 0)::m := by
        rw [hx.bpb, chainLbas_append, slotsOf_append, ← hm]
        simp [chainLbas]
      have hend : (w.entryAt (v.bpb.clusterToLba c, 0)).isEnd := hends _ (by simp [hm])
      refine ⟨⟨(hgrow.reach d).mpr hd, Or.inl hend, _, _, _,
        Or.inr ⟨h2, t++[c], extended_chain ht hx, rfl⟩, hslots, fun p hp => ?_⟩, hend⟩
      have hL : DirLbas v d (chainLbas v.bpb (d::t)) := Or.inr ⟨h2, t, ht, rfl⟩
      rw [extend_entry hx.range hx.free hx.data hL hp]
      exact (freeAt_none (List.findSome?_eq_none_iff.mp hfull p hp)).1
    · rintro a p ha ⟨L, hL, hp⟩
      refine ⟨⟨_, extend_dirLbas hs hd h2 ht hx.range hx.free hx.bpb hlast hnew hfat ha hL, ?_⟩,
        extend_entry hx.range hx.free hx.data hL hp⟩
      split_ifs
      · rw [slotsOf_append]
        exact List.mem_append_left _ hp
      · exact hp

/-- `find_free_dir_entry` in a reachable directory. -/
theorem findFreeDirEntry_spec {d : ℕ} (hf : Flushed v) (hd : Reachable v d) :
    ∃ r w, v.findFreeDirEntry d = some (r, w) ∧ Working w ∧ Flushed w ∧ Grows v w ∧
      ∀ q, r = some q → FreeSlot w d q := by
  obtain ⟨L, hL⟩ := reachable_lbas hs hd
  rcases hL with ⟨rfl, rfl⟩ | ⟨h2, t, ht, rfl⟩
  · exact ⟨_, v, findFreeDirEntry_root hw, hw, hf, grows_refl hs, fun q hq =>
      freeSlot_of_search hd (Or.inl ⟨rfl, rfl⟩) hq⟩
  · rw [findFreeDirEntry_sub hw h2 ht]
    cases hsearch : (slotsOf (chainLbas v.bpb (d::t))).findSome? (freeAt v) with
    | some p =>
      refine ⟨some p, v, rfl, hw, hf, grows_refl hs, ?_⟩
      rintro q ⟨rfl⟩
      exact freeSlot_of_search hd (Or.inr ⟨h2, t, ht, rfl⟩) hsearch
    | none =>
      obtain ⟨r, w, hr, hww, hfw, hg, hslot, -⟩ := extendDir_spec hw hs hf hd h2 ht hsearch
      exact ⟨r, w, by rw [← hr], hww, hfw, hg, fun q hq => (hslot q hq).1⟩

/-- The slot is the first free one of the directory, or the first of a cluster added to it. -/
theorem findFreeDirEntry_first {d : ℕ} {L : List ℕ} {q : Slot} {u : Volume} (hf : Flushed v)
    (hd : Reachable v d) (hL : DirLbas v d L) (h : v.findFreeDirEntry d = some (some q, u)) :
    (u = v ∧ ∃ l₁ l₂, slotsOf L = l₁++q::l₂ ∧
      ∀ p ∈ l₁, ¬ (v.entryAt p).isEnd ∧ ¬ (v.entryAt p).isDeleted) ∨
    ((u.entryAt q).isEnd ∧ ∀ p ∈ slotsOf L, ¬ (v.entryAt p).isEnd ∧ ¬ (v.entryAt p).isDeleted) := by
  have hfound : ∀ q', (slotsOf L).findSome? (freeAt v) = some q' → ∃ l₁ l₂,
      slotsOf L = l₁++q'::l₂ ∧ ∀ p ∈ l₁, ¬ (v.entryAt p).isEnd ∧ ¬ (v.entryAt p).isDeleted := by
    intro q' hq
    obtain ⟨l₁, a, l₂, hl, ha, hskip⟩ := List.findSome?_eq_some_iff.mp hq
    obtain ⟨rfl, -⟩ := freeAt_some ha
    exact ⟨l₁, l₂, hl, fun p hp => freeAt_none (hskip p hp)⟩
  rcases hL with ⟨rfl, rfl⟩ | ⟨h2, t, ht, rfl⟩
  · rw [findFreeDirEntry_root hw] at h
    obtain ⟨hq, rfl⟩ := Prod.mk.inj (Option.some.inj h)
    exact Or.inl ⟨rfl, hfound q hq⟩
  · rw [findFreeDirEntry_sub hw h2 ht] at h
    cases hsearch : (slotsOf (chainLbas v.bpb (d::t))).findSome? (freeAt v) with
    | some p =>
      simp only [hsearch] at h
      obtain ⟨hq, rfl⟩ := Prod.mk.inj (Option.some.inj h)
      exact Or.inl ⟨rfl, hfound q (Option.some.inj hq ▸ hsearch)⟩
    | none =>
      obtain ⟨r, w, hr, -, -, -, hslot, -⟩ := extendDir_spec hw hs hf hd h2 ht hsearch
      simp only [hsearch, hr] at h
      obtain ⟨hq, rfl⟩ := Prod.mk.inj (Option.some.inj h)
      exact Or.inr ⟨(hslot q hq).2, fun p hp =>
        freeAt_none (List.findSome?_eq_none_iff.mp hsearch p hp)⟩

/-- The search for a free slot leaves the slots of all directories as they are. -/
theorem findFreeDirEntry_slots {d : ℕ} {r : Option Slot} {u : Volume} (hf : Flushed v)
    (hd : Reachable v d) (h : v.findFreeDirEntry d = some (r, u)) {a : ℕ} {p : Slot}
    (ha : Reachable v a) (hp : InDir v a p) : InDir u a p ∧ u.entryAt p = v.entryAt p := by
  obtain ⟨L, hL⟩ := reachable_lbas hs hd
  rcases hL with ⟨rfl, rfl⟩ | ⟨h2, t, ht, rfl⟩
  · rw [findFreeDirEntry_root hw] at h
    obtain ⟨-, rfl⟩ := Prod.mk.inj (Option.some.inj h)
    exact ⟨hp, rfl⟩
  · rw [findFreeDirEntry_sub hw h2 ht] at h
    cases hsearch : (slotsOf (chainLbas v.bpb (d::t))).findSome? (freeAt v) with
    | some p =>
      simp only [hsearch] at h
      obtain ⟨-, rfl⟩ := Prod.mk.inj (Option.some.inj h)
      exact ⟨hp, rfl⟩
    | none =>
      obtain ⟨r, w, hr, -, -, -, -, hslots⟩ := extendDir_spec hw hs hf hd h2 ht hsearch
      simp only [hsearch, hr] at h
      obtain ⟨-, rfl⟩ := Prod.mk.inj (Option.some.inj h)
      exact hslots a p ha hp

end Search

end Vlsmc.Fat16Growth
