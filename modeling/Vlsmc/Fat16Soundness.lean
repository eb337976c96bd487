import Vlsmc.Fat16Directory

/-!
# Changes that keep a volume sound

The clusters of reachable entries are owned. Changes to clusters that nobody
owns are invisible. A directory may grow by a cleared cluster, and the slots of
reachable directories may be rewritten as long as every visible entry either
comes from a visible entry of the old volume or brings clusters of its own.
-/

set_option autoImplicit false

namespace Vlsmc.Fat16Soundness
open Vlsmc.Fat16Layout Vlsmc.Fat16Names Vlsmc.Fat16Volume Vlsmc.Fat16Geometry
open Vlsmc.Fat16Chains Vlsmc.Fat16Directory Vlsmc.SuccessorChain

/-- The cluster belongs to the chain of a reachable visible entry. -/
def Owned (v : Volume) (c : ℕ) : Prop :=
  ∃ d p l, Reachable v d ∧ VisibleAt v d p ∧ FatChain v (v.entryAt p).cluster l ∧ c ∈ l

section Owners

variable {v : Volume} {d : ℕ}

theorem owned_fat {c : ℕ} (h : Owned v c) : v.fat c ≠ 0 := by
  obtain ⟨d, p, l, -, -, hl, hc⟩ := h
  exact fatChain_fat_ne_zero hl c hc

theorem owned_range {c : ℕ} (h : Owned v c) : InRange v.bpb c := by
  obtain ⟨d, p, l, -, -, hl, hc⟩ := h
  exact fatChain_range hl c hc

/-- A reachable subdirectory is an entry of a reachable directory. -/
theorem reachable_owner (h : Reachable v d) (h2 : d ≠ 0) :
    ∃ d0 p, Reachable v d0 ∧ VisibleAt v d0 p ∧ (v.entryAt p).isDirectory ∧
      2 ≤ d ∧ (v.entryAt p).cluster = d := by
  rcases Relation.ReflTransGen.cases_tail h with rfl | ⟨d0, h0, p, hp, hdir, hge, hc⟩
  · exact absurd rfl h2
  · exact ⟨d0, p, h0, hp, hdir, hge, hc⟩

theorem dir_owned (h : Reachable v d) (h2 : 2 ≤ d) {l : List ℕ} (hl : FatChain v d l) :
    ∀ c ∈ l, Owned v c := by
  intro c hc
  obtain ⟨d0, p, h0, hp, -, -, rfl⟩ := reachable_owner h (by omega)
  exact ⟨d0, p, l, h0, hp, hl, hc⟩

/-- Different reachable directories share no sector. -/
theorem dirs_disjoint (hs : Sound v) {d' : ℕ} {L L' : List ℕ} (h : Reachable v d)
    (h' : Reachable v d') (hL : DirLbas v d L) (hL' : DirLbas v d' L') (hne : d ≠ d') :
    L.Disjoint L' := by
  intro lba hl hl'
  rcases hL with ⟨rfl, rfl⟩ | ⟨hd, t, ht, rfl⟩ <;> rcases hL' with ⟨rfl, rfl⟩ | ⟨hd', t', ht', rfl⟩
  · exact hne rfl
  · obtain ⟨c, hc, hlba⟩ := List.mem_flatMap.mp hl'
    have hr := fatChain_range ht' c hc
    exact root_not_cluster v.bpb hr.1 hr.2 hlba hl
  · obtain ⟨c, hc, hlba⟩ := List.mem_flatMap.mp hl
    have hr := fatChain_range ht c hc
    exact root_not_cluster v.bpb hr.1 hr.2 hlba hl'
  · obtain ⟨c, hc, hlba⟩ := List.mem_flatMap.mp hl
    obtain ⟨c', hc', hlba'⟩ := List.mem_flatMap.mp hl'
    obtain ⟨e, p, he, hp, -, -, rfl⟩ := reachable_owner h (by omega)
    obtain ⟨e', p', he', hp', -, -, rfl⟩ := reachable_owner h' (by omega)
    have hpp : p ≠ p' := fun heq => hne (by rw [heq])
    have hdis := hs.disjoint e p e' p' _ _ he hp he' hp' hpp ht ht'
    have hcc : c ≠ c' := fun heq => hdis hc (heq ▸ hc')
    have hr := fatChain_range ht c hc
    have hr' := fatChain_range ht' c' hc'
    exact clusterLbas_disjoint v.bpb hr.1 hr.2 hr'.1 hr'.2 hcc hlba hlba'

theorem inDir_unique (hs : Sound v) {d' : ℕ} {p : Slot} (h : Reachable v d)
    (h' : Reachable v d') (hp : InDir v d p) (hp' : InDir v d' p) : d = d' := by
  by_contra hne
  obtain ⟨L, hL, hm⟩ := hp
  obtain ⟨L', hL', hm'⟩ := hp'
  exact dirs_disjoint hs h h' hL hL' hne (mem_slotsOf.mp hm).1 (mem_slotsOf.mp hm').1

end Owners

/-- Reachability depends on the child relation of reachable directories only. -/
theorem reachable_congr {v w : Volume}
    (h : ∀ d, Reachable v d → ∀ d', Child w d d' ↔ Child v d d') (d : ℕ) :
    Reachable w d ↔ Reachable v d := by
  constructor
  · intro hd
    induction hd with
    | refl => exact Relation.ReflTransGen.refl
    | tail _ hc ih => exact ih.tail ((h _ ih _).mp hc)
  · intro hd
    induction hd with
    | refl => exact Relation.ReflTransGen.refl
    | tail hd hc ih => exact ih.tail ((h _ hd _).mpr hc)

section Frame

/-- `w` has the owned clusters and the root directory of `v`. -/
structure SameTree (v w : Volume) : Prop where
  bpb : w.bpb = v.bpb
  fat : ∀ c, Owned v c → w.fat c = v.fat c
  data : ∀ c, Owned v c → ∀ lba ∈ v.bpb.clusterLbas c, w.disk.data lba = v.disk.data lba
  root : ∀ lba ∈ v.bpb.rootLbas, w.disk.data lba = v.disk.data lba

variable {v w : Volume} (hs : Sound v) (ht : SameTree v w)
include hs ht

theorem sameTree_dirLbas {d : ℕ} {L : List ℕ} (h : Reachable v d) :
    DirLbas w d L ↔ DirLbas v d L := by
  have hforth : ∀ L, DirLbas v d L → DirLbas w d L := by
    rintro L (⟨rfl, rfl⟩ | ⟨hd, t, hl, rfl⟩)
    · exact Or.inl ⟨rfl, by rw [ht.bpb]⟩
    · refine Or.inr ⟨hd, t, fatChain_congr ht.bpb hl fun c hc => ?_, by rw [ht.bpb]⟩
      exact ht.fat c (dir_owned h hd hl c hc)
  refine ⟨fun hL => ?_, hforth L⟩
  obtain ⟨M, hM⟩ := reachable_lbas hs h
  rwa [dirLbas_unique hL (hforth M hM)]

omit hs in
theorem sameTree_data {d : ℕ} {L : List ℕ} (h : Reachable v d) (hL : DirLbas v d L) :
    ∀ lba ∈ L, w.disk.data lba = v.disk.data lba := by
  intro lba hl
  rcases hL with ⟨rfl, rfl⟩ | ⟨hd, t, hc, rfl⟩
  · exact ht.root lba hl
  · obtain ⟨c, hct, hlba⟩ := List.mem_flatMap.mp hl
    exact ht.data c (dir_owned h hd hc c hct) lba hlba

omit hs in
theorem sameTree_entry {d : ℕ} {p : Slot} (h : Reachable v d) (hp : InDir v d p) :
    w.entryAt p = v.entryAt p := by
  obtain ⟨L, hL, hm⟩ := hp
  rw [Volume.entryAt, sameTree_data ht h hL p.1 (mem_slotsOf.mp hm).1, Volume.entryAt]

theorem sameTree_inDir {d : ℕ} {p : Slot} (h : Reachable v d) :
    InDir w d p ↔ InDir v d p := by
  unfold InDir
  simp only [sameTree_dirLbas hs ht h]

theorem sameTree_visible {d : ℕ} {p : Slot} (h : Reachable v d) :
    VisibleAt w d p ↔ VisibleAt v d p := by
  constructor
  · rintro ⟨hp, hv⟩
    have hp' := (sameTree_inDir hs ht h).mp hp
    exact ⟨hp', by rwa [← sameTree_entry ht h hp']⟩
  · rintro ⟨hp, hv⟩
    exact ⟨(sameTree_inDir hs ht h).mpr hp, by rwa [sameTree_entry ht h hp]⟩

theorem sameTree_reachable (d : ℕ) : Reachable w d ↔ Reachable v d := by
  apply reachable_congr
  intro d hd d'
  constructor
  · rintro ⟨p, hp, hr⟩
    have hp' := (sameTree_visible hs ht hd).mp hp
    exact ⟨p, hp', by rwa [← sameTree_entry ht hd hp'.1]⟩
  · rintro ⟨p, hp, hr⟩
    exact ⟨p, (sameTree_visible hs ht hd).mpr hp, by rwa [sameTree_entry ht hd hp.1]⟩

omit hs in
theorem sameTree_chain {d : ℕ} {p : Slot} {l : List ℕ} (h : Reachable v d)
    (hp : VisibleAt v d p) (hl : FatChain v (v.entryAt p).cluster l) :
    FatChain w (v.entryAt p).cluster l :=
  fatChain_congr ht.bpb hl fun c hc => ht.fat c ⟨d, p, l, h, hp, hl, hc⟩

theorem sameTree_chain_back {d : ℕ} {p : Slot} {l : List ℕ} (h : Reachable v d)
    (hp : VisibleAt v d p) (hl : FatChain w (v.entryAt p).cluster l) :
    FatChain v (v.entryAt p).cluster l := by
  by_cases h2 : 2 ≤ (v.entryAt p).cluster
  · obtain ⟨t, hv⟩ := hs.chains d p h hp h2
    rwa [fatChain_unique hl (sameTree_chain ht h hp hv)]
  · cases l with
    | nil => exact hl
    | cons x l =>
      have := hl.2.1.1
      have := hl.1
      omega

theorem sameTree_owned (c : ℕ) : Owned w c ↔ Owned v c := by
  constructor
  · rintro ⟨d, p, l, hd, hp, hl, hc⟩
    have hd' := (sameTree_reachable hs ht d).mp hd
    have hp' := (sameTree_visible hs ht hd').mp hp
    rw [sameTree_entry ht hd' hp'.1] at hl
    exact ⟨d, p, l, hd', hp', sameTree_chain_back hs ht hd' hp' hl, hc⟩
  · rintro ⟨d, p, l, hd, hp, hl, hc⟩
    refine ⟨d, p, l, (sameTree_reachable hs ht d).mpr hd, (sameTree_visible hs ht hd).mpr hp, ?_, hc⟩
    rw [sameTree_entry ht hd hp.1]
    exact sameTree_chain ht hd hp hl

/-- Changes outside the owned clusters and the root keep the volume sound. -/
theorem sound_frame : Sound w := by
  have hr := fun d => (sameTree_reachable hs ht d).mp
  have hvis := fun d p (hd : Reachable v d) => (sameTree_visible (p := p) hs ht hd).mp
  constructor
  · intro d p hd hp h2
    have hp' := hvis d p (hr d hd) hp
    rw [sameTree_entry ht (hr d hd) hp'.1] at h2 ⊢
    obtain ⟨t, hl⟩ := hs.chains d p (hr d hd) hp' h2
    exact ⟨t, sameTree_chain ht (hr d hd) hp' hl⟩
  · intro d p d' q l m hd hp hd' hq hne hl hm
    have hp' := hvis d p (hr d hd) hp
    have hq' := hvis d' q (hr d' hd') hq
    rw [sameTree_entry ht (hr d hd) hp'.1] at hl
    rw [sameTree_entry ht (hr d' hd') hq'.1] at hm
    exact hs.disjoint d p d' q l m (hr d hd) hp' (hr d' hd') hq' hne
      (sameTree_chain_back hs ht (hr d hd) hp' hl) (sameTree_chain_back hs ht (hr d' hd') hq' hm)
  · intro d L hd hL
    have hL' := (sameTree_dirLbas hs ht (hr d hd)).mp hL
    refine (hs.ended d L (hr d hd) hL').imp_of_mem fun {p q} hp hq h => ?_
    rwa [sameTree_entry ht (hr d hd) ⟨L, hL', hp⟩, sameTree_entry ht (hr d hd) ⟨L, hL', hq⟩]
  · intro d p q hd hp hq hn
    have hp' := hvis d p (hr d hd) hp
    have hq' := hvis d q (hr d hd) hq
    rw [sameTree_entry ht (hr d hd) hp'.1, sameTree_entry ht (hr d hd) hq'.1] at hn
    exact hs.names d p q (hr d hd) hp' hq' hn

end Frame

section Rewrite

variable {v w : Volume} (hb : w.bpb = v.bpb) (hf : ∀ x, w.fat x = v.fat x)
include hb hf

theorem rewrite_chain {c : ℕ} {l : List ℕ} : FatChain w c l ↔ FatChain v c l :=
  ⟨fun h => fatChain_congr hb.symm h fun x _ => (hf x).symm,
    fun h => fatChain_congr hb h fun x _ => hf x⟩

theorem rewrite_dirLbas {d : ℕ} {L : List ℕ} : DirLbas w d L ↔ DirLbas v d L := by
  unfold DirLbas
  simp only [rewrite_chain hb hf, hb]

theorem rewrite_inDir {d : ℕ} {p : Slot} : InDir w d p ↔ InDir v d p := by
  unfold InDir
  simp only [rewrite_dirLbas hb hf]

/-- Slots of reachable directories are rewritten. A visible entry that is not
fresh comes from the visible entry `φ p`; a fresh entry has clusters that were
not owned and, when it is a directory, nothing visible in it. -/
theorem sound_rewrite (hs : Sound v) (φ : Slot → Slot) (fresh : Slot → Prop)
    (hkeep : ∀ d p, Reachable v d → VisibleAt w d p → ¬ fresh p → ∃ d0, Reachable v d0 ∧
      VisibleAt v d0 (φ p) ∧ (w.entryAt p).cluster = (v.entryAt (φ p)).cluster ∧
      ((w.entryAt p).isDirectory → (v.entryAt (φ p)).isDirectory))
    (hinj : ∀ d p d' q, Reachable v d → VisibleAt w d p → Reachable v d' → VisibleAt w d' q →
      ¬ fresh p → ¬ fresh q → φ p = φ q → p = q)
    (hone : ∀ p q, fresh p → fresh q → p = q)
    (hnew : ∀ p, fresh p → 2 ≤ (w.entryAt p).cluster → ∃ t,
      FatChain v (w.entryAt p).cluster ((w.entryAt p).cluster::t) ∧
      ∀ c ∈ (w.entryAt p).cluster::t, ¬ Owned v c)
    (hempty : ∀ p, fresh p → (w.entryAt p).isDirectory → 2 ≤ (w.entryAt p).cluster →
      (∀ q, ¬ VisibleAt w (w.entryAt p).cluster q) ∧
      ∀ L, DirLbas v (w.entryAt p).cluster L → Ended w L)
    (hended : ∀ d L, Reachable v d → DirLbas v d L → Ended w L)
    (hnames : ∀ d p q, Reachable v d → VisibleAt w d p → VisibleAt w d q →
      entryName (w.entryAt p) = entryName (w.entryAt q) → p = q) :
    Sound w ∧ ∀ d, Reachable w d → Reachable v d ∨ ∃ p, fresh p ∧
      (w.entryAt p).isDirectory ∧ 2 ≤ (w.entryAt p).cluster ∧ (w.entryAt p).cluster = d := by
  have hreach : ∀ d, Reachable w d → Reachable v d ∨ ∃ p, fresh p ∧
      (w.entryAt p).isDirectory ∧ 2 ≤ (w.entryAt p).cluster ∧ (w.entryAt p).cluster = d := by
    intro d hd
    induction hd with
    | refl => exact Or.inl Relation.ReflTransGen.refl
    | @tail d d' _ hc ih =>
      obtain ⟨p, hp, hdir, h2, rfl⟩ := hc
      rcases ih with hd | ⟨q, hq, hqd, hq2, rfl⟩
      · by_cases hfp : fresh p
        · exact Or.inr ⟨p, hfp, hdir, h2, rfl⟩
        · obtain ⟨d0, hd0, hv, hcl, hdir'⟩ := hkeep d p hd hp hfp
          exact Or.inl (hd0.tail ⟨φ p, hv, hdir' hdir, h2, hcl.symm⟩)
      · exact absurd hp ((hempty q hq hqd hq2).1 p)
  -- a visible entry of `w` lies in a directory that was reachable
  have hold : ∀ d p, Reachable w d → VisibleAt w d p → Reachable v d := by
    intro d p hd hp
    rcases hreach d hd with h | ⟨q, hq, hqd, hq2, rfl⟩
    · exact h
    · exact absurd hp ((hempty q hq hqd hq2).1 p)
  refine ⟨⟨?_, ?_, ?_, ?_⟩, hreach⟩
  · intro d p hd hp h2
    by_cases hfp : fresh p
    · obtain ⟨t, ht, -⟩ := hnew p hfp h2
      exact ⟨t, (rewrite_chain hb hf).mpr ht⟩
    · obtain ⟨d0, hd0, hv, hcl, -⟩ := hkeep d p (hold d p hd hp) hp hfp
      rw [hcl] at h2 ⊢
      obtain ⟨t, ht⟩ := hs.chains d0 _ hd0 hv h2
      exact ⟨t, (rewrite_chain hb hf).mpr ht⟩
  · intro d p d' q l m hd hp hd' hq hne hl hm
    rw [rewrite_chain hb hf] at hl hm
    -- the clusters of a kept entry were owned, those of a fresh one were not
    have howned : ∀ d p l, Reachable w d → VisibleAt w d p → ¬ fresh p →
        FatChain v (w.entryAt p).cluster l → ∀ c ∈ l, Owned v c := by
      intro d p l hd hp hfp hl c hc
      obtain ⟨d0, hd0, hv, hcl, -⟩ := hkeep d p (hold d p hd hp) hp hfp
      exact ⟨d0, φ p, l, hd0, hv, hcl ▸ hl, hc⟩
    have hfree : ∀ p l, fresh p → FatChain v (w.entryAt p).cluster l →
        ∀ c ∈ l, ¬ Owned v c := by
      intro p l hfp hl c hc
      have h2 : 2 ≤ (w.entryAt p).cluster := by
        cases l with
        | nil => simp at hc
        | cons x l =>
          rw [hl.1]
          exact hl.2.1.1
      obtain ⟨t, ht, hno⟩ := hnew p hfp h2
      exact hno c (fatChain_unique hl ht ▸ hc)
    intro c hcl hcm
    by_cases hfp : fresh p <;> by_cases hfq : fresh q
    · exact hne (hone p q hfp hfq)
    · exact hfree p l hfp hl c hcl (howned d' q m hd' hq hfq hm c hcm)
    · exact hfree q m hfq hm c hcm (howned d p l hd hp hfp hl c hcl)
    · have hd0 := hold d p hd hp
      have hd0' := hold d' q hd' hq
      obtain ⟨e, he, hv, hc1, -⟩ := hkeep d p hd0 hp hfp
      obtain ⟨e', he', hv', hc2, -⟩ := hkeep d' q hd0' hq hfq
      have hφ : φ p ≠ φ q := fun h => hne (hinj d p d' q hd0 hp hd0' hq hfp hfq h)
      exact hs.disjoint e _ e' _ l m he hv he' hv' hφ (hc1 ▸ hl) (hc2 ▸ hm) hcl hcm
  · intro d L hd hL
    rw [rewrite_dirLbas hb hf] at hL
    rcases hreach d hd with h | ⟨q, hq, hqd, hq2, rfl⟩
    · exact hended d L h hL
    · exact (hempty q hq hqd hq2).2 L hL
  · intro d p q hd hp hq hn
    exact hnames d p q (hold d p hd hp) hp hq hn

end Rewrite

end Vlsmc.Fat16Soundness
