import Vlsmc.CountedLoops
import Vlsmc.CowRefinement

/-!
# Fork and exit

The whole of `cow_clone_directory` and of `destroy_address_space` on the
processes of a sound state.
-/

set_option autoImplicit false

namespace Vlsmc.CowFork
open Vlsmc.CountedLoops
open Vlsmc.Words Vlsmc.SharedFrames Vlsmc.PhysicalMemory Vlsmc.Paging Vlsmc.CowClone
open Vlsmc.CowProcesses Vlsmc.CowRefinement

variable {reserved : ℕ → Prop} {s : World} {p q d nd : ℕ}

theorem mapped_none (h : s.procs q = none) (n : ℕ) : mapped s (q, n) = none := by
  simp [mapped, ptes, h]

/-- The parent's address space is loaded and the frame of the new directory is fresh. -/
theorem forkable_of (hs : Sound reserved s) (hd : s.procs p = some d) (hc : s.machine.cr3 = d)
    (hq : q < 32) (hnone : s.procs q = none)
    (hnd : ¬ Own reserved s nd ∧ ∀ x, mapped s x ≠ some nd) :
    Forkable s.machine (mapped s) (Own reserved s) p q nd := by
  subst hc
  have hl := hs.layout
  refine ⟨(hl.dir p _ hd).2.2.2, own_dir hd, ?_, ?_, ?_, ?_, hq, mapped_none hnone,
    hs.ledger.apart, ?_, hnd⟩
  · intro i t ht
    exact ⟨own_table hd ht, fun he => (hl.table p _ i t hd ht).2.2.2 p (he ▸ hd)⟩
  · intro i j t hi hj
    exact (hl.tables p _ i p _ j t hd hd hi hj).2
  · intro n
    rw [mapped, ptes_of hd]
  · rintro rfl
    rw [hd] at hnone
    exact absurd hnone (by simp)
  · intro n n' f h1 h2
    exact (Prod.mk.inj (hs.ledger.once _ _ f h1 h2 rfl)).2

theorem clear_mem (m : Machine) (frame f k : ℕ) :
    (m.clear frame).mem f k = if f = frame ∧ k < 1024 then 0 else m.mem f k := rfl

/-- A successful clone, up to the recursive entry of the new directory. -/
theorem cowCloneDirectory_spec (hs : Sound reserved s) (hd : s.procs p = some d)
    (hc : s.machine.cr3 = d) (hq : q < 32) (hnone : s.procs q = none)
    (h0 : s.machine.cowCloneDirectory.1 ≠ 0) :
    ∃ nd m2, s.machine.cowCloneDirectory = (nd, m2.write (nd, 1023) (entry nd 3)) ∧ nd ≠ 0 ∧
      nd < s.machine.pmm.maxFrames ∧
      Forkable s.machine (mapped s) (Own reserved s) p q nd ∧
      Cloning s.machine (mapped s) (Own reserved s) p q nd 1024 m2 := by
  unfold Machine.cowCloneDirectory at h0 ⊢
  dsimp only at h0 ⊢
  by_cases hz : s.machine.allocFrame.1 = 0
  · rw [if_pos hz] at h0
    exact absurd rfl h0
  · rw [if_neg hz] at h0 ⊢
    have hz' := hz
    rw [Machine.allocFrame_fst] at hz'
    obtain ⟨hl, hheld, hown, hlt, hmax, -⟩ := ledger_alloc_own hs.ledger hz'
    rw [← Machine.allocFrame_fst] at hheld hown hlt hl
    rw [← Machine.allocFrame_pmm] at hmax hl
    have hmem := Machine.allocFrame_mem s.machine
    have hcr := Machine.allocFrame_cr3 s.machine
    have hkd := Machine.allocFrame_kernelDirectory s.machine
    generalize s.machine.allocFrame = a at *
    obtain ⟨nd, m1⟩ := a
    dsimp only at *
    have hf := forkable_of hs hd hc hq hnone ⟨hown, hheld⟩
    have hstart : Cloning s.machine (mapped s) (Own reserved s) p q nd 0 (m1.clear nd) := by
      have hnoTable : ∀ k, tableAt (m1.clear nd) nd k = none := by
        intro k
        apply if_neg
        rintro ⟨hk, hp, -⟩
        rw [clear_mem, if_pos ⟨rfl, by omega⟩] at hp
        exact absurd hp (by decide)
      refine ⟨hcr, hkd, hmax, ?_, by simp, by simp, by simp, ?_, ?_, ?_, ?_⟩
      · intro f hfo _
        have hne : f ≠ nd := by
          rintro rfl
          rcases hfo with ho | ⟨x, hx⟩
          · exact hown ho
          · exact hheld x hx
        funext k
        rw [clear_mem, if_neg (fun hh => hne hh.1), hmem]
      · intro k hk _
        rw [clear_mem, if_pos ⟨rfl, hk⟩]
      · intro k t hk
        rw [hnoTable] at hk
        exact absurd hk (by simp)
      · intro k k' t hk
        rw [hnoTable] at hk
        exact absurd hk (by simp)
      · apply ledger_congr hl
        · rintro ⟨a, n⟩
          unfold sharedBelow
          split_ifs with ha hn
          · simp at hn
          · obtain rfl : a = q := ha
            exact (mapped_none hnone n).symm
          · rfl
        · intro t
          simp only [hnoTable, reduceCtorEq, exists_false, or_false]
    cases hok : (Machine.cloneEntries nd (List.range 1024) (m1.clear nd)).1 with
    | false =>
      simp only [hok, Bool.false_eq_true, if_false, ne_eq, not_true_eq_false] at h0
    | true =>
      rw [if_pos rfl]
      refine ⟨nd, _, rfl, hz, hlt, hf, ?_⟩
      rw [List.range_eq_range'] at hok ⊢
      exact cloneEntries_spec hf 1024 0 _ rfl hstart hok

section Forked

variable {m2 : Machine}

/-- The world after a fork. -/
def forked (s : World) (q nd : ℕ) (m2 : Machine) : World :=
  ⟨m2.write (nd, 1023) (entry nd 3), fun r => if r = q then some nd else s.procs r⟩

theorem forked_procs {r d' : ℕ} (h : (forked s q nd m2).procs r = some d') :
    (r = q ∧ d' = nd) ∨ (r ≠ q ∧ s.procs r = some d') := by
  unfold forked at h
  by_cases hr : r = q
  · simp only [hr, if_true, Option.some.injEq] at h
    exact Or.inl ⟨hr, h.symm⟩
  · simp only [hr, if_false] at h
    exact Or.inr ⟨hr, h⟩

theorem forked_tableAt (k : ℕ) : tableAt (forked s q nd m2).machine nd k = tableAt m2 nd k := by
  by_cases hk : k = 1023
  · rw [hk, tableAt, tableAt, if_neg (by simp), if_neg (by simp)]
  · apply tableAt_congr
    rw [forked, write_mem, if_neg (fun hh => hk hh.2)]

section

variable (hf : Forkable s.machine (mapped s) (Own reserved s) p q nd)
    (h : Cloning s.machine (mapped s) (Own reserved s) p q nd 1024 m2)
include hf h

theorem forked_kept {f : ℕ} (hown : Own reserved s f ∨ ∃ x, mapped s x = some f)
    (hno : ∀ k, tableAt s.machine s.machine.cr3 k ≠ some f) :
    (forked s q nd m2).machine.mem f = s.machine.mem f := by
  have hne : f ≠ nd := by
    rintro rfl
    rcases hown with ho | ⟨x, hx⟩
    · exact hf.freshDir.1 ho
    · exact hf.freshDir.2 x hx
  funext k
  rw [forked, write_mem, if_neg (fun hh => hne hh.1), h.kept f hown fun k _ => hno k]

theorem forked_data {x : ℕ × ℕ} {f : ℕ} (hx : mapped s x = some f) :
    (forked s q nd m2).machine.mem f = s.machine.mem f :=
  forked_kept hf h (Or.inr ⟨x, hx⟩) fun k hk => hf.apart x f hx (hf.tables k f hk).1

theorem forked_dir (hl : Layout reserved s) (hd : s.procs p = some s.machine.cr3) {r d' : ℕ}
    (hr : s.procs r = some d') : (forked s q nd m2).machine.mem d' = s.machine.mem d' :=
  forked_kept hf h (Or.inl (own_dir hr)) fun k hk =>
    (hl.table p _ k d' hd hk).2.2.2 r hr

theorem forked_parent {k t j : ℕ} (ht : tableAt s.machine s.machine.cr3 k = some t)
    (hj : j < 1024) : (forked s q nd m2).machine.mem t j = cloned (s.machine.mem t j) := by
  have hne : t ≠ nd := fun he => hf.freshDir.1 (he ▸ (hf.tables k t ht).1)
  rw [forked, write_mem, if_neg (fun hh => hne hh.1),
    h.parent k (by have := (tableAt_some ht).1; omega) t ht j, if_pos hj]

omit hf in
/-- The child has a table where the parent has one. -/
theorem forked_child (k : ℕ) :
    match tableAt s.machine s.machine.cr3 k with
    | none => tableAt (forked s q nd m2).machine nd k = none
    | some t => ∃ t', tableAt (forked s q nd m2).machine nd k = some t' ∧
        (forked s q nd m2).machine.mem nd k = entry t' 7 ∧
        ∀ j < 1024, (forked s q nd m2).machine.mem t' j = inherited (s.machine.mem t j) := by
  cases ht : tableAt s.machine s.machine.cr3 k with
  | none =>
    simp only
    rw [forked_tableAt]
    by_cases hk : k < 1023
    · have hw := h.copied k (by omega) (by omega) ht
      unfold tableAt
      rw [hw, if_neg]
      rintro ⟨-, hp, hu⟩
      split_ifs at hp hu with hpres
      · rw [tableAt_of hk hpres hu] at ht
        exact absurd ht (by simp)
      · exact absurd hp (by decide)
    · exact if_neg fun hh => hk hh.1
  | some t =>
    simp only
    have hk := (tableAt_some ht).1
    obtain ⟨t', h1, h2⟩ := h.made k (by omega) t ht
    have htab := tableAt_made hk h1
    have hne := (h.fresh k t' htab).2.1
    refine ⟨t', by rw [forked_tableAt, htab], ?_, fun j hj => ?_⟩
    · rw [forked, write_mem, if_neg (fun hh => by have := hh.2; simp only at this; omega), h1]
    · rw [forked, write_mem, if_neg (fun hh => hne hh.1), h2 j hj]

theorem forked_ptes (hl : Layout reserved s) (hd : s.procs p = some s.machine.cr3) (x : ℕ × ℕ) :
    ptes (forked s q nd m2) x = if x.1 = q then (ptes s (p, x.2)).map cloned
      else if x.1 = p then (ptes s x).map cloned else ptes s x := by
  obtain ⟨r, n⟩ := x
  have hmod : n%1024 < 1024 := by omega
  by_cases hr : r = q
  · have h1 : (forked s q nd m2).procs r = some nd := if_pos hr
    rw [if_pos hr, ptes_of h1, ptes_of hd]
    have hc := forked_child h (n/1024)
    cases ht : tableAt s.machine s.machine.cr3 (n/1024) with
    | none =>
      rw [ht] at hc
      rw [pteAt, pteAt, hc, ht]
      rfl
    | some t =>
      rw [ht] at hc
      obtain ⟨t', h2, -, h3⟩ := hc
      rw [pteAt_table h2, pteAt_table ht, h3 _ hmod, present_inherited]
      by_cases hp : present (s.machine.mem t (n%1024)) = true
      · rw [if_pos hp, if_pos hp, Option.map_some, inherited, if_pos hp]
      · rw [if_neg hp, if_neg hp, Option.map_none]
  · rw [if_neg hr]
    have hprocs : (forked s q nd m2).procs r = s.procs r := if_neg hr
    cases hd' : s.procs r with
    | none =>
      simp [ptes, hprocs, hd']
    | some d' =>
      have htab : tableAt (forked s q nd m2).machine d' (n/1024) =
          tableAt s.machine d' (n/1024) := tableAt_congr (by rw [forked_dir hf h hl hd hd'])
      rw [ptes_of (hprocs.trans hd'), ptes_of hd']
      cases ht : tableAt s.machine d' (n/1024) with
      | none =>
        rw [pteAt, pteAt, htab, ht]
        simp
      | some t =>
        rw [pteAt_table (htab.trans ht), pteAt_table ht]
        by_cases hrp : r = p
        · have hdd : d' = s.machine.cr3 := by
            rw [hrp, hd] at hd'
            exact (Option.some.inj hd').symm
          rw [if_pos hrp, forked_parent hf h (hdd ▸ ht) hmod, present_cloned]
          by_cases hp : present (s.machine.mem t (n%1024)) = true
          · rw [if_pos hp, if_pos hp, Option.map_some]
          · rw [if_neg hp, if_neg hp, Option.map_none]
        · rw [if_neg hrp, forked_kept hf h (Or.inl (own_table hd' ht))]
          intro k hk
          exact hrp (hl.tables r d' _ p _ k t hd' hd ht hk).1

theorem forked_mapped (hl : Layout reserved s) (hd : s.procs p = some s.machine.cr3) (x : ℕ × ℕ) :
    mapped (forked s q nd m2) x = if x.1 = q then mapped s (p, x.2) else mapped s x := by
  have hcl : ∀ o : Option ℕ, (o.map cloned).map frameOf = o.map frameOf := by
    intro o
    cases o with
    | none => rfl
    | some w => rw [Option.map_some, Option.map_some, Option.map_some, frameOf_cloned]
  rw [mapped, forked_ptes hf h hl hd]
  split_ifs
  · exact hcl _
  · exact hcl _
  · rfl

theorem forked_view (hs : Sound reserved s) (hd : s.procs p = some s.machine.cr3) :
    view (forked s q nd m2) = ⟨fun i => if i = q then true else (view s).live i,
      fun x => if x.1 = q then (view s).page (p, x.2) else (view s).page x⟩ := by
  have hsame : ∀ x w, ptes s x = some w →
      pageOf (forked s q nd m2).machine w = pageOf s.machine w := by
    intro x w hx
    unfold pageOf
    rw [forked_data hf h (mapped_of hx)]
  have hcl : ∀ x, ((ptes s x).map cloned).map (pageOf (forked s q nd m2).machine) =
      (ptes s x).map (pageOf s.machine) := by
    intro x
    cases hx : ptes s x with
    | none => rfl
    | some w =>
      obtain ⟨-, -, -, -, hp, -⟩ := ptes_some (p := x.1) (n := x.2) hx
      simp only [Option.map_some, Option.some.injEq]
      rw [← hsame x w hx]
      unfold pageOf
      rw [frameOf_cloned, access_cloned hp]
  unfold view
  congr 1
  · funext i
    unfold forked
    split_ifs with hi
    · simp [hi]
    · simp [hi]
  · funext x
    rw [forked_ptes hf h hs.layout hd]
    split_ifs with h1 h2
    · exact hcl _
    · exact hcl _
    · change (ptes s x).map _ = (ptes s x).map _
      cases hx : ptes s x with
      | none => rfl
      | some w => rw [Option.map_some, Option.map_some, hsame x w hx]

theorem forked_layout (hs : Sound reserved s) (hd : s.procs p = some s.machine.cr3)
    (h0 : nd ≠ 0) (hlt : nd < s.machine.pmm.maxFrames) :
    Layout reserved (forked s q nd m2) := by
  have hl := hs.layout
  have hnd : ¬ Own reserved s nd := hf.freshDir.1
  have hmax : (forked s q nd m2).machine.pmm.maxFrames = s.machine.pmm.maxFrames := h.maxFrames
  have hdir : ∀ {r d'}, s.procs r = some d' →
      (forked s q nd m2).machine.mem d' = s.machine.mem d' := fun hr => forked_dir hf h hl hd hr
  have htab : ∀ {r d'}, s.procs r = some d' → ∀ i,
      tableAt (forked s q nd m2).machine d' i = tableAt s.machine d' i := fun hr i =>
    tableAt_congr (by rw [hdir hr])
  have hfresh : ∀ {i t}, tableAt (forked s q nd m2).machine nd i = some t →
      ¬ Own reserved s t ∧ t ≠ nd ∧ t < s.machine.pmm.maxFrames := by
    intro i t ht
    rw [forked_tableAt] at ht
    obtain ⟨h1, h2, -, h3⟩ := h.fresh i t ht
    exact ⟨h1, h2, h3⟩
  refine ⟨?_, ?_, ?_, ?_, ?_, ?_, ?_⟩
  · have : (forked s q nd m2).machine.kernelDirectory = s.machine.kernelDirectory :=
      h.kernelDirectory
    rw [this]
    exact hl.kernel
  · intro r d' hr
    rcases forked_procs hr with ⟨rfl, -⟩ | ⟨-, hr'⟩
    · exact hf.pid
    · exact hl.pids r d' hr'
  · intro r d' hr
    rw [hmax]
    rcases forked_procs hr with ⟨-, rfl⟩ | ⟨-, hr'⟩
    · refine ⟨h0, hlt, fun hres => hnd (Or.inl hres), ?_⟩
      rw [forked, write_mem, if_pos ⟨rfl, rfl⟩]
    · rw [hdir hr']
      exact hl.dir r d' hr'
  · intro r r' d' hr hr'
    rcases forked_procs hr with ⟨h1, h2⟩ | ⟨-, h2⟩ <;>
      rcases forked_procs hr' with ⟨h3, h4⟩ | ⟨-, h4⟩
    · rw [h1, h3]
    · exact absurd (own_dir (h2 ▸ h4)) hnd
    · exact absurd (own_dir (h4 ▸ h2)) hnd
    · exact hl.dirs r r' d' h2 h4
  · intro r d' i t hr ht
    rw [hmax]
    rcases forked_procs hr with ⟨-, rfl⟩ | ⟨-, hr'⟩
    · obtain ⟨h1, h2, h3⟩ := hfresh ht
      refine ⟨h3, fun hres => h1 (Or.inl hres), ?_, fun r' hr' => ?_⟩
      · have hc := forked_child h i
        cases hti : tableAt s.machine s.machine.cr3 i with
        | none =>
          rw [hti] at hc
          rw [hc] at ht
          exact absurd ht (by simp)
        | some t0 =>
          rw [hti] at hc
          obtain ⟨t', -, h4, -⟩ := hc
          rw [h4]
          exact writable_entry_seven t'
      · rcases forked_procs hr' with ⟨-, h5⟩ | ⟨-, h5⟩
        · exact h2 h5
        · exact h1 (own_dir h5)
    · rw [htab hr'] at ht
      obtain ⟨h1, h2, h3, h4⟩ := hl.table r d' i t hr' ht
      refine ⟨h1, h2, by rw [hdir hr']; exact h3, fun r' hr'' => ?_⟩
      rcases forked_procs hr'' with ⟨-, h5⟩ | ⟨-, h5⟩
      · exact hnd (h5 ▸ own_table hr' ht)
      · exact h4 r' h5
  · intro r d1 i r' d2 i' t hr hr' ht ht'
    rcases forked_procs hr with ⟨h1, h2⟩ | ⟨-, h2⟩ <;>
      rcases forked_procs hr' with ⟨h3, h4⟩ | ⟨-, h4⟩
    · subst h2 h4
      rw [forked_tableAt] at ht ht'
      exact ⟨h1.trans h3.symm, h.distinct i i' t ht ht'⟩
    · subst h2
      rw [htab h4] at ht'
      exact absurd (own_table h4 ht') (hfresh ht).1
    · subst h4
      rw [htab h2] at ht
      exact absurd (own_table h2 ht) (hfresh ht').1
    · rw [htab h2] at ht
      rw [htab h4] at ht'
      exact hl.tables r d1 i r' d2 i' t h2 h4 ht ht'
  · intro x w hx
    have hcl : ∀ x w, (ptes s x).map cloned = some w → user w = true := by
      intro x w hx
      obtain ⟨v, hv, rfl⟩ := Option.map_eq_some_iff.mp hx
      exact user_cloned (hl.user x v hv)
    rw [forked_ptes hf h hl hd] at hx
    split_ifs at hx
    · exact hcl _ _ hx
    · exact hcl _ _ hx
    · exact hl.user x w hx

theorem forked_sound (hs : Sound reserved s) (hd : s.procs p = some s.machine.cr3)
    (hqnone : s.procs q = none) (h0 : nd ≠ 0) (hlt : nd < s.machine.pmm.maxFrames) :
    Sound reserved (forked s q nd m2) := by
  have hl := hs.layout
  have hmapped := forked_mapped hf h hl hd
  have htab : ∀ {r d'}, s.procs r = some d' → ∀ i,
      tableAt (forked s q nd m2).machine d' i = tableAt s.machine d' i := fun hr i =>
    tableAt_congr (by rw [forked_dir hf h hl hd hr])
  refine ⟨forked_layout hf h hs hd h0 hlt, ?_, ?_⟩
  · have hledger := h.ledger
    apply ledger_congr hledger
    · rintro ⟨r, n⟩
      rw [hmapped, sharedBelow]
      by_cases hr : r = q
      · rw [if_pos hr, if_pos hr]
        split_ifs with hn
        · rfl
        · have hno : tableAt s.machine s.machine.cr3 (n/1024) = none :=
            if_neg fun hh => by have := hh.1; simp only at hn; omega
          rw [mapped, ptes_of hd, pteAt, hno]
          rfl
      · rw [if_neg hr, if_neg hr]
    · intro t
      constructor
      · rintro (hres | ⟨r, d', hr, ht⟩)
        · exact Or.inl (Or.inl hres)
        · rcases forked_procs hr with ⟨-, rfl⟩ | ⟨-, hr'⟩
          · rcases ht with ht | ⟨i, ht⟩
            · exact Or.inr (Or.inl ht)
            · exact Or.inr (Or.inr ⟨i, (forked_tableAt i).symm.trans ht⟩)
          · rcases ht with ht | ⟨i, ht⟩
            · exact Or.inl (ht ▸ own_dir hr')
            · exact Or.inl (own_table hr' ((htab hr' i).symm.trans ht))
      · rintro ((hres | ⟨r, d', hr, ht⟩) | ht | ⟨i, ht⟩)
        · exact Or.inl hres
        · have hrq : (forked s q nd m2).procs r = some d' := by
            rw [← hr]
            exact if_neg fun he => by rw [he, hqnone] at hr; exact absurd hr (by simp)
          rcases ht with ht | ⟨i, ht⟩
          · exact ht ▸ own_dir hrq
          · exact own_table hrq ((htab hr i).trans ht)
        · exact ht ▸ own_dir (p := q) (if_pos rfl)
        · exact own_table (p := q) (if_pos rfl) ((forked_tableAt i).trans ht)
  · intro x w hx hw y hy
    rw [forked_ptes hf h hl hd] at hx
    rw [hmapped] at hy
    have hcl : ∀ z, (ptes s z).map cloned ≠ some w := by
      intro z hz
      obtain ⟨v, hv, rfl⟩ := Option.map_eq_some_iff.mp hz
      obtain ⟨-, -, -, -, hp, -⟩ := ptes_some (p := z.1) (n := z.2) hv
      rw [writable_cloned hp] at hw
      exact absurd hw (by simp)
    split_ifs at hx with h1 h2
    · exact absurd hx (hcl _)
    · exact absurd hx (hcl _)
    · split_ifs at hy with h3
      · have hyx := hs.sole x w hx hw _ hy
        exact absurd (congrArg Prod.fst hyx).symm h2
      · exact hs.sole x w hx hw y hy

end

end Forked

theorem fork_spec (hs : Sound reserved s) (hd : s.procs p = some d) (hc : s.machine.cr3 = d)
    (hq : q < 32) (hnone : s.procs q = none) (h0 : s.machine.cowCloneDirectory.1 ≠ 0) {s' : World}
    (hs' : s' = ⟨s.machine.cowCloneDirectory.2,
      fun r => if r = q then some s.machine.cowCloneDirectory.1 else s.procs r⟩) :
    Sound reserved s' ∧ view s' = ⟨fun i => if i = q then true else (view s).live i,
      fun x => if x.1 = q then (view s).page (p, x.2) else (view s).page x⟩ := by
  obtain ⟨nd, m2, heq, hnd0, hlt, hf, hcl⟩ := cowCloneDirectory_spec hs hd hc hq hnone h0
  rw [heq] at hs'
  subst hc hs'
  exact ⟨forked_sound hf hcl hs hd hnone hnd0 hlt, forked_view hf hcl hs hd⟩

section Exit

/-- The mappings while process `p` has given back its pages below `n`. -/
def droppedBelow (M : ℕ × ℕ → Option ℕ) (p n : ℕ) : ℕ × ℕ → Option ℕ := fun x =>
  if x.1 = p ∧ x.2 < n then none else M x

theorem droppedBelow_succ (M : ℕ × ℕ → Option ℕ) (p n : ℕ) :
    droppedBelow M p (n+1) = setSlot (droppedBelow M p n) (p, n) none := by
  funext x
  obtain ⟨a, k⟩ := x
  unfold droppedBelow setSlot
  by_cases ha : a = p
  · by_cases hk : k = n
    · simp [ha, hk]
    · have h1 : k < n+1 ↔ k < n := by omega
      simp [ha, hk, h1]
  · simp [ha]

/-- Only the counts change while a table is released. -/
theorem releaseTable_spec {m : Machine} {M : ℕ × ℕ → Option ℕ} {own : ℕ → Prop} {p base t : ℕ}
    (hwords : ∀ j < 1024, M (p, base+j) =
      if present (m.mem t j) then some (frameOf (m.mem t j)) else none)
    (h : Ledger m.pmm (droppedBelow M p base) own Prod.fst) :
    ∀ n ≤ 1024, ∀ m', (List.range n).foldl (fun m j =>
        if present (m.mem t j) then m.decRef (frameOf (m.mem t j)) else m) m = m' →
      m'.mem = m.mem ∧ m'.cr3 = m.cr3 ∧ m'.kernelDirectory = m.kernelDirectory ∧
      m'.pmm.maxFrames = m.pmm.maxFrames ∧
      Ledger m'.pmm (droppedBelow M p (base+n)) own Prod.fst := by
  intro n
  induction n with
  | zero =>
    rintro - m' rfl
    exact ⟨rfl, rfl, rfl, rfl, h⟩
  | succ n ih =>
    intro hn m'' hm''
    obtain ⟨h1, h2, h3, h4, h5⟩ := ih (by omega) _ rfl
    rw [List.range_succ, List.foldl_append, List.foldl_cons, List.foldl_nil] at hm''
    subst hm''
    generalize (List.range n).foldl (fun m j =>
      if present (m.mem t j) then m.decRef (frameOf (m.mem t j)) else m) m = m' at *
    have hslot : droppedBelow M p (base+n) (p, base+n) = M (p, base+n) := by simp [droppedBelow]
    rw [← Nat.add_assoc, droppedBelow_succ, h1]
    by_cases hp : present (m.mem t n) = true
    · rw [if_pos hp]
      refine ⟨h1, h2, h3, ?_, ?_⟩
      · rw [← h4, Machine.decRef, decRef_eq]
        exact freeFrame_maxFrames _ _
      · rw [Machine.decRef, decRef_eq]
        apply ledger_drop h5
        rw [hslot, hwords n (by omega), if_pos hp]
    · rw [if_neg hp]
      refine ⟨h1, h2, h3, h4, ?_⟩
      rwa [setSlot_self]
      rw [hslot, hwords n (by omega), if_neg hp]

/-- The loop over the directory, before entry `i`. -/
structure Releasing (reserved : ℕ → Prop) (s : World) (p d i : ℕ) (m : Machine) : Prop where
  mem : m.mem = s.machine.mem
  cr3 : m.cr3 = s.machine.cr3
  kernelDirectory : m.kernelDirectory = s.machine.kernelDirectory
  maxFrames : m.pmm.maxFrames = s.machine.pmm.maxFrames
  ledger : Ledger m.pmm (droppedBelow (mapped s) p (1024*i))
    (fun t => Own reserved s t ∧ ∀ k < i, tableAt s.machine d k ≠ some t) Prod.fst

theorem releaseEntry_spec (hs : Sound reserved s) (hd : s.procs p = some d) {i : ℕ}
    (hi : i < 1024) {m : Machine} (h : Releasing reserved s p d i m) :
    Releasing reserved s p d (i+1) (m.releaseEntry d i) := by
  have hl := hs.layout
  have hpages : ∀ j < 1024, mapped s (p, 1024*i+j) = (tableAt s.machine d i).bind fun t =>
      if present (s.machine.mem t j) then some (frameOf (s.machine.mem t j)) else none := by
    intro j hj
    have h1 : (1024*i+j)/1024 = i := by omega
    have h2 : (1024*i+j)%1024 = j := by omega
    rw [mapped, ptes_of hd, pteAt, h1, h2]
    cases tableAt s.machine d i with
    | none => rfl
    | some t =>
      simp only [Option.bind_some]
      split_ifs <;> rfl
  have hskip : tableAt s.machine d i = none → Releasing reserved s p d (i+1) m := by
    intro ht
    refine ⟨h.mem, h.cr3, h.kernelDirectory, h.maxFrames, ledger_congr h.ledger ?_ ?_⟩
    · intro x
      unfold droppedBelow
      by_cases hx : x.1 = p ∧ x.2 < 1024*(i+1)
      · rw [if_pos hx]
        by_cases hx' : x.1 = p ∧ x.2 < 1024*i
        · rw [if_pos hx']
        · rw [if_neg hx']
          have hx2 : x = (p, 1024*i+(x.2-1024*i)) := by
            apply Prod.ext
            · exact hx.1
            · simp only
              omega
          rw [hx2, hpages _ (by omega), ht]
          rfl
      · rw [if_neg hx, if_neg (by omega)]
    · intro t
      constructor
      · rintro ⟨h1, h2⟩
        exact ⟨h1, fun k hk => h2 k (by omega)⟩
      · rintro ⟨h1, h2⟩
        refine ⟨h1, fun k hk hkt => ?_⟩
        by_cases hki : k = i
        · rw [hki, ht] at hkt
          exact absurd hkt (by simp)
        · exact h2 k (by omega) hkt
  unfold Machine.releaseEntry
  by_cases h3 : i = 1023
  · rw [if_pos h3]
    exact hskip (if_neg (by omega))
  · rw [if_neg h3, h.mem]
    cases hp : present (s.machine.mem d i) with
    | false =>
      rw [if_pos (by simp)]
      exact hskip (if_neg (by simp [hp]))
    | true =>
      rw [if_neg (by simp)]
      cases hu : user (s.machine.mem d i) with
      | false =>
        rw [if_pos (by simp)]
        exact hskip (if_neg (by simp [hu]))
      | true =>
        rw [if_neg (by simp)]
        have ht := tableAt_of (show i < 1023 by omega) hp hu
        generalize frameOf (s.machine.mem d i) = t at *
        have hwords : ∀ j < 1024, mapped s (p, 1024*i+j) =
            if present (m.mem t j) then some (frameOf (m.mem t j)) else none := by
          intro j hj
          rw [hpages j hj, ht, h.mem]
          rfl
        obtain ⟨m', hm'⟩ : ∃ m', m.releaseTable t = m' := ⟨_, rfl⟩
        obtain ⟨h1, h2, h4, h5, h6⟩ := releaseTable_spec hwords h.ledger 1024 le_rfl m'
          (by rw [← hm', Machine.releaseTable])
        rw [hm']
        have hown : Own reserved s t ∧ ∀ k < i, tableAt s.machine d k ≠ some t := by
          refine ⟨own_table hd ht, fun k hk hkt => ?_⟩
          have := (hl.tables p d k p d i t hd hd hkt ht).2
          omega
        have hltm := (hl.table p d i t hd ht).1
        refine ⟨h1.trans h.mem, h2.trans h.cr3, h4.trans h.kernelDirectory, ?_, ?_⟩
        · rw [← h.maxFrames, ← h5]
          exact freeFrame_maxFrames _ _
        · have hfree := ledger_free_own h6 hown (by rw [h5, h.maxFrames]; exact hltm)
          rw [Nat.mul_succ]
          apply ledger_congr hfree (fun _ => rfl)
          intro f
          constructor
          · rintro ⟨h7, h8⟩
            exact ⟨⟨h7, fun k hk => h8 k (by omega)⟩, fun he => h8 i (by omega) (he ▸ ht)⟩
          · rintro ⟨⟨h7, h8⟩, h9⟩
            refine ⟨h7, fun k hk hkf => ?_⟩
            by_cases hki : k = i
            · rw [hki, ht] at hkf
              exact h9 (Option.some.inj hkf).symm
            · exact h8 k (by omega) hkf

theorem releaseEntries_spec (hs : Sound reserved s) (hd : s.procs p = some d) :
    ∀ n ≤ 1024, Releasing reserved s p d n
      ((List.range n).foldl (fun m i => m.releaseEntry d i) s.machine) := by
  intro n hn
  have hstart : Releasing reserved s p d 0 s.machine := by
    refine ⟨rfl, rfl, rfl, rfl, ledger_congr hs.ledger (fun x => ?_) fun t => ?_⟩
    · unfold droppedBelow
      rw [if_neg (by simp)]
    · simp
  exact foldl_range hstart n fun i hi m hm => releaseEntry_spec hs hd (by omega) hm

/-- The world without process `p`. -/
def exited (s : World) (p : ℕ) (m : Machine) : World :=
  ⟨m, fun r => if r = p then none else s.procs r⟩

theorem exited_procs {m : Machine} {r d' : ℕ} (h : (exited s p m).procs r = some d') :
    r ≠ p ∧ s.procs r = some d' := by
  unfold exited at h
  by_cases hr : r = p
  · simp [hr] at h
  · simp only [hr, if_false] at h
    exact ⟨hr, h⟩

theorem exited_ptes {m : Machine} (hm : m.mem = s.machine.mem) (x : ℕ × ℕ) :
    ptes (exited s p m) x = if x.1 = p then none else ptes s x := by
  unfold ptes exited
  by_cases hx : x.1 = p
  · simp [hx]
  · simp only [hx, if_false, pteAt, tableAt, hm]

theorem exit_spec (hs : Sound reserved s) (hd : s.procs p = some d) {m' : Machine}
    (hm' : s.machine.destroyAddressSpace d = m') :
    Sound reserved (exited s p m') ∧
    view (exited s p m') = ⟨fun i => if i = p then false else (view s).live i,
      fun x => if x.1 = p then none else (view s).page x⟩ := by
  have hl := hs.layout
  obtain ⟨hd0, hdlt, hdres, -⟩ := hl.dir p d hd
  have hdk : d ≠ s.machine.kernelDirectory := fun he => hdres (he ▸ hl.kernel)
  obtain ⟨m1, hm1⟩ : ∃ m1, (List.range 1024).foldl (fun m i => m.releaseEntry d i) s.machine = m1 :=
    ⟨_, rfl⟩
  have hrel := releaseEntries_spec hs hd 1024 le_rfl
  rw [hm1] at hrel
  rw [Machine.destroyAddressSpace, if_neg hd0, if_neg hdk, hm1] at hm'
  have hdown : Own reserved s d ∧ ∀ k < 1024, tableAt s.machine d k ≠ some d :=
    ⟨own_dir hd, fun k _ hk => (hl.table p d k d hd hk).2.2.2 p hd⟩
  have hledger := ledger_free_own hrel.ledger hdown (by rw [hrel.maxFrames]; exact hdlt)
  have hmem : m'.mem = s.machine.mem := by
    rw [← hm']
    exact hrel.mem
  have hpmm : m'.pmm = m1.pmm.freeFrame d := by
    rw [← hm']
    rfl
  have hmax : m'.pmm.maxFrames = s.machine.pmm.maxFrames := by
    rw [hpmm, freeFrame_maxFrames, hrel.maxFrames]
  have hkd : m'.kernelDirectory = s.machine.kernelDirectory := by
    rw [← hm']
    exact hrel.kernelDirectory
  clear hm' hm1
  have hptes := exited_ptes (p := p) hmem
  have hmapped : ∀ x, mapped (exited s p m') x = if x.1 = p then none else mapped s x := by
    intro x
    rw [mapped, hptes]
    split_ifs <;> rfl
  have htab : ∀ d' i, tableAt (exited s p m').machine d' i = tableAt s.machine d' i :=
    fun d' i => tableAt_congr (by rw [exited, hmem])
  refine ⟨⟨⟨?_, ?_, ?_, ?_, ?_, ?_, ?_⟩, ?_, ?_⟩, ?_⟩
  · rw [exited, hkd]
    exact hl.kernel
  · intro r d' hr
    exact hl.pids r d' (exited_procs hr).2
  · intro r d' hr
    rw [exited, hmax, hmem]
    exact hl.dir r d' (exited_procs hr).2
  · intro r r' d' hr hr'
    exact hl.dirs r r' d' (exited_procs hr).2 (exited_procs hr').2
  · intro r d' i t hr ht
    rw [htab] at ht
    obtain ⟨h1, h2, h3, h4⟩ := hl.table r d' i t (exited_procs hr).2 ht
    rw [exited, hmax, hmem]
    exact ⟨h1, h2, h3, fun r' hr' => h4 r' (exited_procs hr').2⟩
  · intro r d1 i r' d2 i' t hr hr' ht ht'
    rw [htab] at ht ht'
    exact hl.tables r d1 i r' d2 i' t (exited_procs hr).2 (exited_procs hr').2 ht ht'
  · intro x w hx
    rw [hptes] at hx
    split_ifs at hx
    exact hl.user x w hx
  · rw [exited, hpmm]
    apply ledger_congr hledger
    · rintro ⟨r, n⟩
      change mapped (exited s p m') (r, n) = _
      rw [hmapped, droppedBelow]
      by_cases hr : r = p
      · rw [if_pos hr]
        split_ifs with hn
        · rfl
        · have hno : tableAt s.machine d (n/1024) = none :=
            if_neg fun hh => by have := hh.1; simp only [hr, true_and] at hn; omega
          rw [hr, mapped, ptes_of hd, pteAt, hno]
          rfl
      · rw [if_neg hr, if_neg fun hh => hr hh.1]
    · intro t
      change Own reserved (exited s p m') t ↔ _
      constructor
      · rintro (hres | ⟨r, d', hr, ht⟩)
        · exact ⟨⟨Or.inl hres, fun k _ hk => (hl.table p d k t hd hk).2.1 hres⟩,
            fun he => hdres (he ▸ hres)⟩
        · obtain ⟨hrp, hr'⟩ := exited_procs hr
          rcases ht with ht | ⟨i, ht⟩
          · subst ht
            exact ⟨⟨own_dir hr', fun k _ hk => (hl.table p d k t hd hk).2.2.2 r hr'⟩,
              fun he => hrp (hl.dirs r p t hr' (he ▸ hd))⟩
          · rw [htab] at ht
            exact ⟨⟨own_table hr' ht, fun k _ hk => hrp (hl.tables r d' i p d k t hr' hd ht hk).1⟩,
              fun he => (hl.table r d' i t hr' ht).2.2.2 p (he ▸ hd)⟩
      · rintro ⟨⟨hres | ⟨r, d', hr, ht⟩, hno⟩, hne⟩
        · exact Or.inl hres
        · have hrp : r ≠ p := by
            rintro rfl
            obtain rfl : d' = d := Option.some.inj (hr.symm.trans hd)
            rcases ht with ht | ⟨i, ht⟩
            · exact hne ht
            · exact hno i (by have := (tableAt_some ht).1; omega) ht
          have hr' : (exited s p m').procs r = some d' := by
            rw [← hr]
            exact if_neg hrp
          rcases ht with ht | ⟨i, ht⟩
          · exact ht ▸ own_dir hr'
          · exact own_table hr' ((htab d' i).trans ht)
  · intro x w hx hw y hy
    rw [hptes] at hx
    rw [hmapped] at hy
    split_ifs at hx hy
    exact hs.sole x w hx hw y hy
  · unfold view
    congr 1
    · funext i
      unfold exited
      split_ifs with hi
      · simp [hi]
      · simp [hi]
    · funext x
      rw [hptes]
      split_ifs
      · rfl
      · change (ptes s x).map _ = (ptes s x).map _
        unfold pageOf exited
        rw [hmem]

end Exit

end Vlsmc.CowFork
