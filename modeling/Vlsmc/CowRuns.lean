import Vlsmc.CowFork

/-!
# Runs of processes with shared pages

From processes with private anonymous pages, every run shows what the
reference shows, and the reference counts stay exact.
-/

set_option autoImplicit false

namespace Vlsmc.CowRuns
open Vlsmc.Words Vlsmc.SharedFrames Vlsmc.PhysicalMemory Vlsmc.Paging Vlsmc.CowClone
open Vlsmc.CowProcesses Vlsmc.CowRefinement Vlsmc.CowFork

variable {reserved : ℕ → Prop} {s : World}

theorem view_live {p d : ℕ} (hd : s.procs p = some d) : (view s).live p = true := by
  simp [view, hd]

theorem view_page {x : ℕ × ℕ} {w : ℕ} (hx : ptes s x = some w) :
    (view s).page x = some (pageOf s.machine w) := by
  simp [view, hx]

/-- Unmapping, through either system call. -/
theorem unmap_spec (hs : Sound reserved s) {p d virt : ℕ} (hd : s.procs p = some d)
    (hm : (ptes s (p, virt/4096)).isSome) {m' : Machine}
    (hm' : m' = (s.machine.switchAddressSpace d).munmapPage virt) :
    Sound reserved ⟨m', s.procs⟩ ∧
      unmapReference (view s) p virt = some (view ⟨m', s.procs⟩, .done) := by
  obtain ⟨w, hw⟩ := Option.isSome_iff_exists.mp hm
  obtain ⟨t, hrun⟩ := running_of (s := ⟨s.machine.switchAddressSpace d, s.procs⟩) hw hd rfl
  obtain ⟨h1, h2⟩ := munmapPage_spec (sound_switch hs d) hrun
  subst hm'
  refine ⟨h1, ?_⟩
  rw [unmapReference, if_pos ⟨view_live hd, by rw [view_page hw]; rfl⟩, h2]
  rfl

/-- A step keeps the invariant and is a step of the reference. -/
theorem step_refines (hs : Sound reserved s) (a : Action) {r : World × Outcome}
    (h : step s a = some r) :
    Sound reserved r.1 ∧ referenceStep (view s) a = some (view r.1, r.2) := by
  cases a with
  | fork p q =>
    obtain ⟨d, hd, h⟩ := Option.bind_eq_some_iff.mp h
    split_ifs at h with hq
    dsimp only at h
    split_ifs at h with h0
    obtain ⟨h1, h2⟩ := fork_spec (sound_switch hs d) hd rfl hq.1 hq.2 h0 rfl
    obtain rfl := Option.some.inj h
    refine ⟨h1, ?_⟩
    rw [referenceStep, if_pos ⟨view_live hd, hq.1, by simp [view, hq.2]⟩]
    exact congrArg (fun v => some (v, Outcome.done)) h2.symm
  | load p virt =>
    obtain ⟨d, hd, h⟩ := Option.bind_eq_some_iff.mp h
    have hs' := sound_switch hs d
    simp only at h
    split_ifs at h with hm
    obtain ⟨w, hw⟩ := Option.isSome_iff_exists.mp hm
    obtain ⟨t, hrun⟩ := running_of (s := ⟨s.machine.switchAddressSpace d, s.procs⟩) hw hd rfl
    have hacc := running_access hs'.layout hrun false
    rw [if_pos (Or.inl rfl)] at hacc
    simp only at hacc
    rw [hacc] at h
    obtain rfl := Option.some.inj h
    refine ⟨hs', ?_⟩
    rw [referenceStep, if_pos (view_live hd), view_page hw]
    rfl
  | store p virt value =>
    obtain ⟨d, hd, h⟩ := Option.bind_eq_some_iff.mp h
    have hs' := sound_switch hs d
    split_ifs at h with hm
    obtain ⟨w, hw⟩ := Option.isSome_iff_exists.mp hm
    obtain ⟨t, hrun⟩ := running_of (s := ⟨s.machine.switchAddressSpace d, s.procs⟩) hw hd rfl
    obtain ⟨r', hr', rfl⟩ := Option.map_eq_some_iff.mp h
    obtain ⟨h1, h2⟩ := storeWord_spec hs' hrun hr'
    refine ⟨h1, ?_⟩
    rw [referenceStep, if_pos (view_live hd), view_page hw, Option.map_some]
    rcases h2 with ⟨hwr, ho, hv⟩ | ⟨hwr, ho, hv⟩
    · have hwr' : (pageOf s.machine w).writable = true := hwr
      rw [if_pos hwr', hv, ho]
      rfl
    · have hwr' : (pageOf s.machine w).writable = false := hwr
      rw [if_neg (by rw [hwr']; simp), hv, ho]
      rfl
  | munmap p virt =>
    obtain ⟨d, hd, h⟩ := Option.bind_eq_some_iff.mp h
    split_ifs at h with hm
    obtain rfl := Option.some.inj h
    exact unmap_spec hs hd hm rfl
  | sbrk p virt =>
    obtain ⟨d, hd, h⟩ := Option.bind_eq_some_iff.mp h
    split_ifs at h with hm
    obtain rfl := Option.some.inj h
    exact unmap_spec hs hd hm (sbrkPage_eq _ _)
  | exit p =>
    obtain ⟨d, hd, h⟩ := Option.bind_eq_some_iff.mp h
    obtain ⟨h1, h2⟩ := exit_spec (s := ⟨s.machine.switchAddressSpace d, s.procs⟩)
      (sound_switch hs d) hd rfl
    obtain rfl := Option.some.inj h
    refine ⟨h1, ?_⟩
    rw [referenceStep, if_pos (view_live hd)]
    exact congrArg (fun v => some (v, Outcome.done)) h2.symm

theorem run_refines (hs : Sound reserved s) (acts : List Action) {r : World × List Outcome}
    (h : run s acts = some r) :
    Sound reserved r.1 ∧ referenceRun (view s) acts = some (view r.1, r.2) := by
  induction acts generalizing s r with
  | nil =>
    obtain rfl := Option.some.inj h
    exact ⟨hs, rfl⟩
  | cons a as ih =>
    obtain ⟨r1, h1, h⟩ := Option.bind_eq_some_iff.mp h
    obtain ⟨r2, h2, rfl⟩ := Option.map_eq_some_iff.mp h
    obtain ⟨hs1, href⟩ := step_refines hs a h1
    obtain ⟨hs2, hrun⟩ := ih hs1 h2
    refine ⟨hs2, ?_⟩
    rw [referenceRun, href, Option.bind_some, hrun]
    rfl

/-- Every user page has a frame of its own, as `alloc_frame` handed it out. -/
structure Anonymous (reserved : ℕ → Prop) (s : World) : Prop where
  layout : Layout reserved s
  allocated : ∀ x f, mapped s x = some f → f ≠ 0 ∧ f < s.machine.pmm.maxFrames ∧
    s.machine.pmm.memoryBitmap f = true ∧ s.machine.pmm.refcounts f = 1 ∧ ¬ Own reserved s f
  isolated : ∀ x y f, mapped s x = some f → mapped s y = some f → x = y
  kernel : ∀ t, Own reserved s t →
    s.machine.pmm.memoryBitmap t = true ∧ s.machine.pmm.refcounts t ≤ 1
  unused : ∀ f, ¬ Own reserved s f → (∀ x, mapped s x ≠ some f) → s.machine.pmm.refcounts f = 0

theorem sound_of_anonymous (h : Anonymous reserved s) : Sound reserved s := by
  refine ⟨h.layout, ⟨fun x f hx => ?_, fun f hf => ?_, h.kernel, fun x f hx => ?_, fun f => ?_,
    fun x y f hx hy _ => h.isolated x y f hx hy, fun x f hx => ?_⟩, fun x w hx _ y hy => ?_⟩
  · obtain ⟨h1, h2, h3, -⟩ := h.allocated x f hx
    exact ⟨h1, h2, h3⟩
  · by_cases hm : ∃ x, mapped s x = some f
    · obtain ⟨x, hx⟩ := hm
      rw [(h.allocated x f hx).2.2.2.1]
      exact (ncard_of_sole hx fun y hy => h.isolated y x f hy hx).symm
    · have hnone : ∀ x, mapped s x ≠ some f := fun x hx => hm ⟨x, hx⟩
      have hempty : holders (mapped s) f = ∅ :=
        Set.eq_empty_of_forall_notMem fun x hx => hnone x hx
      rw [h.unused f hf hnone, hempty, Set.ncard_empty]
  · exact (h.allocated x f hx).2.2.2.2
  · apply Set.Subsingleton.finite
    intro x hx y hy
    exact h.isolated x y f hx hy
  · obtain ⟨w, hw, -⟩ := Option.map_eq_some_iff.mp hx
    obtain ⟨d, t, hd, -⟩ := ptes_some (p := x.1) (n := x.2) hw
    exact h.layout.pids x.1 d hd
  · exact h.isolated y x _ hy (mapped_of hx)

/-- Copy-on-write refines eager copying: a run from private anonymous pages has
the outcomes of the reference, the processes see the pages of the reference,
and every frame that is not the kernel's is counted by the entries that map it. -/
theorem cow_refines_copying (reserved : ℕ → Prop) (s : World) (hs : Anonymous reserved s)
    (acts : List Action) (s' : World) (outs : List Outcome) (h : run s acts = some (s', outs)) :
    referenceRun (view s) acts = some (view s', outs) ∧
    (∀ f, ¬ Own reserved s' f →
      s'.machine.pmm.refcounts f = {x | mapped s' x = some f}.ncard) ∧
    ∀ x f, mapped s' x = some f → ¬ Own reserved s' f := by
  obtain ⟨h1, h2⟩ := run_refines (sound_of_anonymous hs) acts h
  exact ⟨h2, h1.ledger.counted, h1.ledger.apart⟩

/-- Process 1 with one writable page at `KERNEL_SPACE_END`. -/
def onePage : World where
  machine :=
    { mem := fun f k =>
        if f = 2 ∧ k = 8 then entry 3 7
        else if f = 2 ∧ k = 1023 then entry 2 3
        else if f = 3 ∧ k = 0 then entry 4 7
        else 0
      pmm := ⟨fun f => f < 5, 32, 5, fun f => if f < 5 then 1 else 0⟩
      cr3 := 2
      kernelDirectory := 1 }
  procs := fun p => if p = 1 then some 2 else none

theorem onePage_procs {p d : ℕ} (h : onePage.procs p = some d) : p = 1 ∧ d = 2 := by
  simp only [onePage] at h
  split_ifs at h with hp
  exact ⟨hp, (Option.some.inj h).symm⟩

theorem onePage_tableAt {i t : ℕ} (h : tableAt onePage.machine 2 i = some t) : i = 8 ∧ t = 3 := by
  obtain ⟨hi, hp, -, hf⟩ := tableAt_some h
  by_cases h8 : i = 8
  · subst h8
    refine ⟨rfl, ?_⟩
    rw [← hf]
    decide
  · have hz : onePage.machine.mem 2 i = 0 := by
      simp only [onePage, true_and]
      rw [if_neg h8, if_neg (by omega), if_neg (by simp)]
    rw [hz] at hp
    exact absurd hp (by decide)

theorem onePage_ptes {x : ℕ × ℕ} {w : ℕ} (h : ptes onePage x = some w) :
    x = (1, 8192) ∧ w = entry 4 7 := by
  obtain ⟨d, t, hd, ht, hp, hw⟩ := ptes_some (p := x.1) (n := x.2) h
  obtain ⟨hx1, rfl⟩ := onePage_procs hd
  obtain ⟨hx2, rfl⟩ := onePage_tableAt ht
  have hmod : x.2%1024 = 0 := by
    by_contra hne
    have hz : onePage.machine.mem 3 (x.2%1024) = 0 := by
      simp [onePage, hne]
    rw [hz] at hw
    rw [← hw] at hp
    exact absurd hp (by decide)
  refine ⟨Prod.ext hx1 (by simp only; omega), ?_⟩
  rw [← hw, hmod]
  decide

theorem onePage_mapped {x : ℕ × ℕ} {f : ℕ} (h : mapped onePage x = some f) :
    x = (1, 8192) ∧ f = 4 := by
  obtain ⟨w, hw, rfl⟩ := Option.map_eq_some_iff.mp h
  obtain ⟨hx, rfl⟩ := onePage_ptes hw
  exact ⟨hx, by decide⟩

theorem onePage_own (t : ℕ) : Own (fun t => t < 2) onePage t ↔ t < 4 := by
  constructor
  · rintro (h | ⟨p, d, hd, h⟩)
    · exact lt_trans h (by decide)
    · obtain ⟨-, rfl⟩ := onePage_procs hd
      rcases h with rfl | ⟨i, hi⟩
      · decide
      · rw [(onePage_tableAt hi).2]
        decide
  · intro h
    by_cases h2 : t < 2
    · exact Or.inl h2
    · have htab : tableAt onePage.machine 2 8 = some 3 := by decide
      by_cases h3 : t = 2
      · exact Or.inr ⟨1, 2, rfl, Or.inl h3⟩
      · obtain rfl : t = 3 := by omega
        exact Or.inr ⟨1, 2, rfl, Or.inr ⟨8, htab⟩⟩

theorem onePage_anonymous : Anonymous (fun t => t < 2) onePage := by
  refine ⟨⟨by decide, ?_, ?_, ?_, ?_, ?_, ?_⟩, ?_, ?_, ?_, ?_⟩
  · intro p d h
    rw [(onePage_procs h).1]
    decide
  · intro p d h
    rw [(onePage_procs h).2]
    exact ⟨by decide, by decide, by decide, by decide⟩
  · intro p p' d h h'
    rw [(onePage_procs h).1, (onePage_procs h').1]
  · intro p d i t h ht
    obtain ⟨-, rfl⟩ := onePage_procs h
    obtain ⟨rfl, rfl⟩ := onePage_tableAt ht
    refine ⟨by decide, by decide, by decide, fun p' h' => ?_⟩
    exact absurd (onePage_procs h').2 (by decide)
  · intro p d i p' d' i' t h h' ht ht'
    obtain ⟨h1, rfl⟩ := onePage_procs h
    obtain ⟨h2, rfl⟩ := onePage_procs h'
    exact ⟨h1.trans h2.symm, (onePage_tableAt ht).1.trans (onePage_tableAt ht').1.symm⟩
  · intro x w h
    rw [(onePage_ptes h).2]
    decide
  · intro x f h
    obtain ⟨-, rfl⟩ := onePage_mapped h
    exact ⟨by decide, by decide, by decide, by decide, by rw [onePage_own]; decide⟩
  · intro x y f hx hy
    rw [(onePage_mapped hx).1, (onePage_mapped hy).1]
  · intro t ht
    rw [onePage_own] at ht
    simp only [onePage]
    exact ⟨by simp; omega, by split_ifs <;> simp⟩
  · intro f hf hm
    rw [onePage_own] at hf
    have h4 : f ≠ 4 := by
      rintro rfl
      exact hm (1, 8192) (by decide)
    simp only [onePage]
    rw [if_neg (by omega)]

theorem cow_refines_copying_onePage :
    ∃ s', run onePage [.store 1 0x2000000 7, .load 1 0x2000000, .munmap 1 0x2000000] =
        some (s', [.done, .value 7, .done]) ∧
      referenceRun (view onePage)
        [.store 1 0x2000000 7, .load 1 0x2000000, .munmap 1 0x2000000] =
        some (view s', [.done, .value 7, .done]) := by
  have hrun : (run onePage [.store 1 0x2000000 7, .load 1 0x2000000, .munmap 1 0x2000000]).map
      Prod.snd = some [.done, .value 7, .done] := by decide +kernel
  obtain ⟨r, hr, ho⟩ := Option.map_eq_some_iff.mp hrun
  have hr' : run onePage [.store 1 0x2000000 7, .load 1 0x2000000, .munmap 1 0x2000000] =
      some (r.1, [.done, .value 7, .done]) := by rw [hr, ← ho]
  exact ⟨r.1, hr', (cow_refines_copying _ onePage onePage_anonymous _ _ _ hr').1⟩

end Vlsmc.CowRuns
