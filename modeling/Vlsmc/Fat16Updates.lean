import Vlsmc.Fat16Soundness
import Vlsmc.Fat16Files

/-!
# The elementary changes of the driver

Every operation of the driver is a sequence of four changes: delete an entry,
add an entry in the first free slot of a directory, move an entry to such a
slot, and append a cleared cluster to a directory. Each keeps the volume sound.
-/

set_option autoImplicit false

namespace Vlsmc.Fat16Updates
open Vlsmc.Fat16Layout Vlsmc.Fat16Names Vlsmc.Fat16Volume Vlsmc.Fat16Geometry
open Vlsmc.Fat16Chains Vlsmc.Fat16Directory Vlsmc.Fat16Soundness Vlsmc.Fat16Files
open Vlsmc.SuccessorChain

/-- The entries after slot `q` was given the record `e`. -/
def setAt (E : Slot → DirEntry) (q : Slot) (e : DirEntry) : Slot → DirEntry :=
  fun p => if p = q then e else E p

theorem setAt_same (E : Slot → DirEntry) (q : Slot) (e : DirEntry) : setAt E q e q = e :=
  if_pos rfl

theorem setAt_ne (E : Slot → DirEntry) {p q : Slot} (e : DirEntry) (h : p ≠ q) :
    setAt E q e p = E p := if_neg h

section Disk

variable (v : Volume) (q : Slot) (f : DirEntry → DirEntry)

@[simp] theorem updateEntry_bpb : (v.updateEntry q f).bpb = v.bpb := rfl
@[simp] theorem updateEntry_mounted : (v.updateEntry q f).mounted = v.mounted := rfl
@[simp] theorem updateEntry_fatTable : (v.updateEntry q f).fatTable = v.fatTable := rfl
@[simp] theorem updateEntry_fat (x : ℕ) : (v.updateEntry q f).fat x = v.fat x := rfl
@[simp] theorem updateEntry_size : (v.updateEntry q f).disk.size = v.disk.size := write_size _ _ _

theorem updateEntry_other (lba : ℕ) (h : lba ≠ q.1) :
    (v.updateEntry q f).disk.data lba = v.disk.data lba := write_other _ _ _ _ h

theorem entryAt_write (d : ℕ → Sector) (e : DirEntry) (p : Slot) :
    getEntry (if p.1 = q.1 then setEntry (d q.1) q.2 e else d p.1) p.2 =
      setAt (fun r => getEntry (d r.1) r.2) q e p := by
  by_cases h1 : p.1 = q.1
  · by_cases h2 : p.2 = q.2
    · rw [if_pos h1, h2, getEntry_setEntry, Prod.ext h1 h2, setAt_same]
    · have hne : p ≠ q := fun h => h2 (by rw [h])
      rw [if_pos h1, getEntry_setEntry_ne _ _ _ _ (Ne.symm h2), setAt_ne _ _ hne, h1]
  · have hne : p ≠ q := fun h => h1 (by rw [h])
    rw [if_neg h1, setAt_ne _ _ hne]

theorem updateEntry_entryAt (hq : q.1 < v.disk.size) (p : Slot) :
    (v.updateEntry q f).entryAt p = setAt v.entryAt q (f (v.entryAt q)) p := by
  rw [Volume.entryAt]
  simp only [Volume.updateEntry]
  rw [write_data _ _ _ hq, load_eq _ _ hq]
  exact entryAt_write q v.disk.data (f (v.entryAt q)) p

end Disk

section Move

variable (v : Volume) (old new : Slot) (e : DirEntry)

theorem moveEntry_table : (moveEntry v old new e).bpb = v.bpb ∧
    (moveEntry v old new e).mounted = v.mounted ∧
    (moveEntry v old new e).fatTable = v.fatTable ∧
    (moveEntry v old new e).disk.size = v.disk.size := by
  unfold moveEntry
  split <;> simp

theorem moveEntry_other (lba : ℕ) (ho : lba ≠ old.1) (hn : lba ≠ new.1) :
    (moveEntry v old new e).disk.data lba = v.disk.data lba := by
  unfold moveEntry
  split
  · exact write_other _ _ _ _ hn
  · rw [updateEntry_other _ _ _ _ hn, updateEntry_other _ _ _ _ ho]

theorem moveEntry_entryAt (hne : old ≠ new) (ho : old.1 < v.disk.size)
    (hn : new.1 < v.disk.size) (p : Slot) :
    (moveEntry v old new e).entryAt p =
      setAt (setAt v.entryAt old (v.entryAt old).markDeleted) new e p := by
  unfold moveEntry
  split
  · rename_i hsame
    have hidx : old.2 ≠ new.2 := fun h => hne (Prod.ext hsame h)
    simp only [Volume.entryAt, write_data _ _ _ hn, load_eq _ _ hn, apply_ite (getEntry · p.2)]
    by_cases h1 : p.1 = new.1
    · by_cases h2 : p.2 = new.2
      · rw [if_pos h1, h2, getEntry_setEntry, Prod.ext h1 h2, setAt_same]
      · have hpn : p ≠ new := fun h => h2 (by rw [h])
        rw [if_pos h1, getEntry_setEntry_ne _ _ _ _ (Ne.symm h2), setAt_ne _ _ hpn]
        by_cases h3 : p.2 = old.2
        · rw [h3, getEntry_setEntry, Prod.ext (h1.trans hsame.symm) h3, setAt_same, ← hsame]
        · have hpo : p ≠ old := fun h => h3 (by rw [h])
          rw [getEntry_setEntry_ne _ _ _ _ (Ne.symm h3), setAt_ne _ _ hpo, Volume.entryAt, h1]
    · have hpn : p ≠ new := fun h => h1 (by rw [h])
      have hpo : p ≠ old := fun h => h1 (by rw [h, hsame])
      rw [if_neg h1, setAt_ne _ _ hpn, setAt_ne _ _ hpo, Volume.entryAt]
  · rw [updateEntry_entryAt _ _ _ (by simpa using hn)]
    by_cases hp : p = new
    · rw [hp, setAt_same, setAt_same]
    · rw [setAt_ne _ _ hp, setAt_ne _ _ hp, updateEntry_entryAt _ _ _ ho]

end Move

section Ends

/-- Termination as a property of the entries. -/
def EndedBy (E : Slot → DirEntry) (L : List ℕ) : Prop :=
  (slotsOf L).Pairwise fun p q => (E p).isEnd → (E q).isEnd

variable {E : Slot → DirEntry} {L : List ℕ}

theorem markDeleted_not_end (e : DirEntry) : ¬ e.markDeleted.isEnd := by
  simp [DirEntry.isEnd, DirEntry.markDeleted]

theorem markDeleted_deleted (e : DirEntry) : e.markDeleted.isDeleted := by
  simp [DirEntry.isDeleted, DirEntry.markDeleted]

theorem ended_delete (h : EndedBy E L) (p0 : Slot) (h0 : ¬ (E p0).isEnd) (e : DirEntry)
    (he : ¬ e.isEnd) : EndedBy (setAt E p0 e) L := by
  refine h.imp fun {p q} hpq hp => ?_
  by_cases h1 : p = p0
  · rw [h1, setAt_same] at hp
    exact absurd hp he
  · rw [setAt_ne _ _ h1] at hp
    have hne : q ≠ p0 := fun h2 => h0 (h2 ▸ hpq hp)
    rw [setAt_ne _ _ hne]
    exact hpq hp

theorem ended_insert (h : EndedBy E L) {l₁ l₂ : List Slot} {q : Slot}
    (hl : slotsOf L = l₁++q::l₂) (hn : (slotsOf L).Nodup) (hbefore : ∀ p ∈ l₁, ¬ (E p).isEnd)
    (e : DirEntry) (he : ¬ e.isEnd) : EndedBy (setAt E q e) L := by
  unfold EndedBy at h ⊢
  rw [hl] at h hn ⊢
  obtain ⟨-, hn2, hdis⟩ := List.nodup_append.mp hn
  have hq2 : ∀ p ∈ l₂, p ≠ q := fun p hp heq => (List.nodup_cons.mp hn2).1 (heq ▸ hp)
  have hq1 : ∀ p ∈ l₁, p ≠ q := fun p hp heq => hdis p hp q (by simp) heq
  rw [List.pairwise_append, List.pairwise_cons] at h ⊢
  refine ⟨?_, ⟨fun p _ hend => ?_, ?_⟩, fun p hp r _ hend => ?_⟩
  · refine h.1.imp_of_mem fun {a b} ha hb hab => ?_
    rwa [setAt_ne _ _ (hq1 a ha), setAt_ne _ _ (hq1 b hb)]
  · rw [setAt_same] at hend
    exact absurd hend he
  · refine h.2.1.2.imp_of_mem fun {a b} ha hb hab => ?_
    rwa [setAt_ne _ _ (hq2 a ha), setAt_ne _ _ (hq2 b hb)]
  · rw [setAt_ne _ _ (hq1 p hp)] at hend
    exact absurd hend (hbefore p hp)

theorem ended_congr {F : Slot → DirEntry} (h : EndedBy E L)
    (he : ∀ p ∈ slotsOf L, F p = E p) : EndedBy F L :=
  h.imp_of_mem fun {a b} ha hb hab => by rwa [he a ha, he b hb]

end Ends

/-- The first free slot of a reachable directory. -/
structure FreeSlot (v : Volume) (d : ℕ) (q : Slot) : Prop where
  reachable : Reachable v d
  free : (v.entryAt q).isEnd ∨ (v.entryAt q).isDeleted
  first : ∃ L l₁ l₂, DirLbas v d L ∧ slotsOf L = l₁++q::l₂ ∧ ∀ p ∈ l₁, ¬ (v.entryAt p).isEnd

theorem freeSlot_inDir {v : Volume} {d : ℕ} {q : Slot} (h : FreeSlot v d q) : InDir v d q := by
  obtain ⟨L, l₁, l₂, hL, hl, -⟩ := h.first
  exact ⟨L, hL, by simp [hl]⟩

theorem freeSlot_not_visible {v : Volume} {d : ℕ} {q : Slot} (h : FreeSlot v d q) :
    ¬ Visible (v.entryAt q) := by
  intro hv
  rcases h.free with he | he
  · exact hv.used he
  · exact hv.kept he

section Entries

variable {v w : Volume} (hs : Sound v) (hb : w.bpb = v.bpb) (hf : ∀ x, w.fat x = v.fat x)
include hs hb hf

/-- Deleting an entry: it disappears, its clusters belong to nobody. -/
theorem sound_delete {d0 : ℕ} {p0 : Slot} (hd0 : Reachable v d0) (hp0 : VisibleAt v d0 p0)
    (he : ∀ p, w.entryAt p = setAt v.entryAt p0 (v.entryAt p0).markDeleted p) :
    Sound w ∧ (∀ d, Reachable w d → Reachable v d) ∧
    (∀ d p, VisibleAt w d p ↔ VisibleAt v d p ∧ p ≠ p0) ∧
    ∀ l, FatChain v (v.entryAt p0).cluster l → ∀ c ∈ l, ¬ Owned w c := by
  have hvis : ∀ d p, VisibleAt w d p ↔ VisibleAt v d p ∧ p ≠ p0 := by
    intro d p
    unfold VisibleAt
    rw [rewrite_inDir hb hf, he]
    by_cases hp : p = p0
    · rw [hp, setAt_same]
      exact ⟨fun h => absurd (markDeleted_deleted _) h.2.kept, fun h => absurd rfl h.2⟩
    · rw [setAt_ne _ _ hp]
      exact ⟨fun h => ⟨h, hp⟩, fun h => h.1⟩
  have hsame : ∀ p, p ≠ p0 → w.entryAt p = v.entryAt p := fun p hp => by rw [he, setAt_ne _ _ hp]
  obtain ⟨hsw, hreach⟩ := sound_rewrite hb hf hs id (fun _ => False)
    (fun d p hd hp _ => by
      obtain ⟨hp', hne⟩ := (hvis d p).mp hp
      exact ⟨d, hd, hp', by rw [hsame p hne]; rfl, by rw [hsame p hne]; exact id⟩)
    (fun _ _ _ _ _ _ _ _ _ _ h => h) (fun _ _ h => h.elim) (fun _ h => h.elim)
    (fun _ h => h.elim)
    (fun d L hd hL => by
      have := ended_delete (hs.ended d L hd hL) p0 hp0.2.used _
        (markDeleted_not_end (v.entryAt p0))
      exact ended_congr this fun p _ => he p)
    (fun d p q hd hp hq hn => by
      obtain ⟨hp', hpne⟩ := (hvis d p).mp hp
      obtain ⟨hq', hqne⟩ := (hvis d q).mp hq
      rw [hsame p hpne, hsame q hqne] at hn
      exact hs.names d p q hd hp' hq' hn)
  have hr : ∀ d, Reachable w d → Reachable v d := fun d hd => by simpa using hreach d hd
  refine ⟨hsw, hr, hvis, fun l hl c hc => ?_⟩
  rintro ⟨d, p, m, hd, hp, hm, hcm⟩
  obtain ⟨hp', hpne⟩ := (hvis d p).mp hp
  rw [hsame p hpne, rewrite_chain hb hf] at hm
  exact hs.disjoint d p d0 p0 m l (hr d hd) hp' hd0 hp0 hpne hm hl hcm hc

/-- Moving an entry to the first free slot of a directory that lacks its new name. -/
theorem sound_move {d0 d1 : ℕ} {p0 q : Slot} {e : DirEntry} (hd0 : Reachable v d0)
    (hp0 : VisibleAt v d0 p0) (hq : FreeSlot v d1 q) (hev : Visible e)
    (hec : e.cluster = (v.entryAt p0).cluster)
    (hed : e.isDirectory → (v.entryAt p0).isDirectory)
    (hname : ∀ p, VisibleAt v d1 p → entryName (v.entryAt p) ≠ entryName e)
    (he : ∀ p, w.entryAt p = setAt (setAt v.entryAt p0 (v.entryAt p0).markDeleted) q e p) :
    Sound w ∧ ∀ d, Reachable w d → Reachable v d := by
  have hq0 : q ≠ p0 := fun h => freeSlot_not_visible hq (h ▸ hp0.2)
  have heq : w.entryAt q = e := by rw [he, setAt_same]
  have hsame : ∀ p, p ≠ q → p ≠ p0 → w.entryAt p = v.entryAt p := fun p h1 h2 => by
    rw [he, setAt_ne _ _ h1, setAt_ne _ _ h2]
  have hvis : ∀ d p, VisibleAt w d p → p ≠ q → VisibleAt v d p ∧ p ≠ p0 := by
    intro d p hp hpq
    have hne : p ≠ p0 := by
      rintro rfl
      have hdel := hp.2.kept
      rw [he, setAt_ne _ _ hpq, setAt_same] at hdel
      exact hdel (markDeleted_deleted _)
    exact ⟨⟨(rewrite_inDir hb hf).mp hp.1, hsame p hpq hne ▸ hp.2⟩, hne⟩
  have hdir : ∀ d, Reachable v d → VisibleAt w d q → d = d1 := fun d hd hv =>
    inDir_unique hs hd hq.reachable ((rewrite_inDir hb hf).mp hv.1) (freeSlot_inDir hq)
  obtain ⟨hsw, hreach⟩ := sound_rewrite hb hf hs (fun p => if p = q then p0 else p)
    (fun _ => False)
    (fun d p hd hp _ => by
      by_cases hpq : p = q
      · subst hpq
        simp only [if_true, heq]
        exact ⟨d0, hd0, hp0, hec, hed⟩
      · obtain ⟨hp', hne⟩ := hvis d p hp hpq
        rw [if_neg hpq, hsame p hpq hne]
        exact ⟨d, hd, hp', rfl, id⟩)
    (fun d p d' r hd hp hd' hr _ _ h => by
      by_cases h1 : p = q <;> by_cases h2 : r = q
      · rw [h1, h2]
      · simp only [h1, if_true, if_neg h2] at h
        exact absurd h.symm (hvis d' r hr h2).2
      · simp only [if_neg h1, h2, if_true] at h
        exact absurd h (hvis d p hp h1).2
      · simpa [h1, h2] using h)
    (fun _ _ h => h.elim) (fun _ h => h.elim) (fun _ h => h.elim)
    (fun d L hd hL => by
      have h1 := ended_delete (hs.ended d L hd hL) p0 hp0.2.used _
        (markDeleted_not_end (v.entryAt p0))
      by_cases hdd : d = d1
      · subst hdd
        obtain ⟨M, l₁, l₂, hM, hl, hbefore⟩ := hq.first
        rw [dirLbas_unique hM hL] at hl
        have h2 := ended_insert h1 hl (slotsOf_nodup (dirLbas_nodup hL)) (fun p hp => by
          by_cases hp0' : p = p0
          · rw [hp0', setAt_same]
            exact markDeleted_not_end _
          · rw [setAt_ne _ _ hp0']
            exact hbefore p hp) e hev.used
        exact ended_congr h2 fun p _ => he p
      · refine ended_congr h1 fun p hp => ?_
        have hpq : p ≠ q := fun h => hdd
          (inDir_unique hs hd hq.reachable ⟨L, hL, h ▸ hp⟩ (freeSlot_inDir hq))
        rw [he, setAt_ne _ _ hpq])
    (fun d p r hd hp hr hn => by
      by_cases h1 : p = q <;> by_cases h2 : r = q
      · rw [h1, h2]
      · obtain ⟨hr', hne⟩ := hvis d r hr h2
        have := hdir d hd (h1 ▸ hp)
        subst this
        rw [h1, heq, hsame r h2 hne] at hn
        exact absurd hn.symm (hname r hr')
      · obtain ⟨hp', hne⟩ := hvis d p hp h1
        have := hdir d hd (h2 ▸ hr)
        subst this
        rw [h2, heq, hsame p h1 hne] at hn
        exact absurd hn (hname p hp')
      · obtain ⟨hp', hpne⟩ := hvis d p hp h1
        obtain ⟨hr', hrne⟩ := hvis d r hr h2
        rw [hsame p h1 hpne, hsame r h2 hrne] at hn
        exact hs.names d p r hd hp' hr' hn)
  exact ⟨hsw, fun d hd => by simpa using hreach d hd⟩

/-- A new entry in the first free slot, with no cluster or with clusters of its own. -/
theorem sound_insert {d1 : ℕ} {q : Slot} {e : DirEntry} (hq : FreeSlot v d1 q)
    (hev : Visible e)
    (hname : ∀ p, VisibleAt v d1 p → entryName (v.entryAt p) ≠ entryName e)
    (he : ∀ p, w.entryAt p = setAt v.entryAt q e p)
    (hnew : 2 ≤ e.cluster → ∃ t, FatChain v e.cluster (e.cluster::t) ∧
      ∀ c ∈ e.cluster::t, ¬ Owned v c)
    (hempty : e.isDirectory → 2 ≤ e.cluster → (∀ r, ¬ VisibleAt w e.cluster r) ∧
      ∀ L, DirLbas v e.cluster L → Ended w L) :
    Sound w ∧ (∀ d p, VisibleAt w d p ↔ if p = q then InDir v d q else VisibleAt v d p) ∧
      ∀ d, Reachable w d → Reachable v d ∨ (e.isDirectory ∧ 2 ≤ e.cluster ∧ e.cluster = d) := by
  have heq : w.entryAt q = e := by rw [he, setAt_same]
  have hsame : ∀ p, p ≠ q → w.entryAt p = v.entryAt p := fun p hp => by rw [he, setAt_ne _ _ hp]
  have hvis : ∀ d p, VisibleAt w d p ↔ if p = q then InDir v d q else VisibleAt v d p := by
    intro d p
    unfold VisibleAt
    rw [rewrite_inDir hb hf]
    by_cases hp : p = q
    · simp only [hp, if_true, heq]
      exact ⟨fun h => h.1, fun h => ⟨h, hev⟩⟩
    · simp only [if_neg hp, hsame p hp]
  have hold : ∀ d p, VisibleAt w d p → p ≠ q → VisibleAt v d p := fun d p hp hpq => by
    simpa [hpq] using (hvis d p).mp hp
  have hdir : ∀ d, Reachable v d → VisibleAt w d q → d = d1 := fun d hd hv =>
    inDir_unique hs hd hq.reachable ((rewrite_inDir hb hf).mp hv.1) (freeSlot_inDir hq)
  obtain ⟨hsw, hreach⟩ := sound_rewrite hb hf hs id (· = q)
    (fun d p hd hp hpq => by
      have hp' := hold d p hp hpq
      exact ⟨d, hd, hp', by rw [hsame p hpq]; rfl, by rw [hsame p hpq]; exact id⟩)
    (fun _ _ _ _ _ _ _ _ _ _ h => h) (fun p r hp hr => hp.trans hr.symm)
    (by
      rintro p rfl h2
      rw [heq] at h2 ⊢
      exact hnew h2)
    (by
      rintro p rfl hd h2
      rw [heq] at hd h2 ⊢
      exact hempty hd h2)
    (fun d L hd hL => by
      by_cases hdd : d = d1
      · subst hdd
        obtain ⟨M, l₁, l₂, hM, hl, hbefore⟩ := hq.first
        rw [dirLbas_unique hM hL] at hl
        have h2 := ended_insert (hs.ended d L hd hL) hl (slotsOf_nodup (dirLbas_nodup hL))
          hbefore e hev.used
        exact ended_congr h2 fun p _ => he p
      · refine ended_congr (hs.ended d L hd hL) fun p hp => hsame p fun h => hdd ?_
        exact inDir_unique hs hd hq.reachable ⟨L, hL, h ▸ hp⟩ (freeSlot_inDir hq))
    (fun d p r hd hp hr hn => by
      by_cases h1 : p = q <;> by_cases h2 : r = q
      · rw [h1, h2]
      · have := hdir d hd (h1 ▸ hp)
        subst this
        rw [h1, heq, hsame r h2] at hn
        exact absurd hn.symm (hname r (hold d r hr h2))
      · have := hdir d hd (h2 ▸ hr)
        subst this
        rw [h2, heq, hsame p h1] at hn
        exact absurd hn (hname p (hold d p hp h1))
      · rw [hsame p h1, hsame r h2] at hn
        exact hs.names d p r hd (hold d p hp h1) (hold d r hr h2) hn)
  refine ⟨hsw, hvis, fun d hd => ?_⟩
  rcases hreach d hd with h | ⟨p, rfl, hdir', h2, hc⟩
  · exact Or.inl h
  · rw [heq] at hdir' h2 hc
    exact Or.inr ⟨hdir', h2, hc⟩

end Entries

end Vlsmc.Fat16Updates
