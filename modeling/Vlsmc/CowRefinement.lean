import Vlsmc.CowProcesses

/-!
# Copy-on-write refines copying

Every step of the processes keeps the invariant and is a step of the reference.
-/

set_option autoImplicit false

namespace Vlsmc.CowRefinement
open Vlsmc.Words Vlsmc.SharedFrames Vlsmc.PhysicalMemory Vlsmc.Paging Vlsmc.CowClone
open Vlsmc.CowProcesses

variable {reserved : ℕ → Prop} {s : World}

theorem sound_switch (h : Sound reserved s) (d : ℕ) :
    Sound reserved ⟨s.machine.switchAddressSpace d, s.procs⟩ :=
  ⟨⟨h.layout.kernel, h.layout.pids, h.layout.dir, h.layout.dirs, h.layout.table, h.layout.tables,
    h.layout.user⟩, h.ledger, h.sole⟩

theorem mapped_of {x : ℕ × ℕ} {w : ℕ} (h : ptes s x = some w) : mapped s x = some (frameOf w) := by
  rw [mapped, h]
  rfl

/-- The facts about a mapped page of the process that runs. -/
structure Running (s : World) (p n d t w : ℕ) : Prop where
  dir : s.procs p = some d
  loaded : s.machine.cr3 = d
  table : tableAt s.machine d (n/1024) = some t
  word : s.machine.mem t (n%1024) = w
  present : present w = true

theorem running_of {p n w : ℕ} (h : ptes s (p, n) = some w) {d : ℕ} (hd : s.procs p = some d)
    (hc : s.machine.cr3 = d) : ∃ t, Running s p n d t w := by
  obtain ⟨d', t, h1, h2, h3, h4⟩ := ptes_some h
  obtain rfl : d' = d := Option.some.inj (h1.symm.trans hd)
  exact ⟨t, h1, hc, h2, h4, h3⟩

section Access

variable {p n d t w virt : ℕ}

theorem running_ptes (h : Running s p n d t w) : ptes s (p, n) = some w := by
  rw [ptes_of h.dir, pteAt_table h.table, h.word, if_pos h.present]

theorem running_walk (h : Running s p (virt/4096) d t w) :
    s.machine.walk virt = (s.machine.mem d (virt/4096/1024), w) := by
  have hdiv : virt/4194304 = virt/4096/1024 := by omega
  rw [Machine.walk, h.loaded, hdiv, (tableAt_some h.table).2.2.2, h.word]

theorem running_access (hl : Layout reserved s) (h : Running s p (virt/4096) d t w) (b : Bool) :
    s.machine.userAccess virt b =
      if b = false ∨ writable w = true then some (frameOf w, virt%4096/4) else none := by
  obtain ⟨-, hp, hu, -⟩ := tableAt_some h.table
  have hw := (hl.table p d _ t h.dir h.table).2.2.1
  have huser := hl.user _ _ (running_ptes h)
  rw [Machine.userAccess, running_walk h]
  simp only [hp, hu, hw, huser, h.present, Bool.true_and]
  cases b <;> simp

theorem running_recursive (hl : Layout reserved s) (h : Running s p n d t w) :
    frameOf (s.machine.mem s.machine.cr3 1023) = s.machine.cr3 := by
  rw [h.loaded, (hl.dir p d h.dir).2.2.2, frameOf_entry _ (by decide)]

theorem running_ptePtr (hl : Layout reserved s) (h : Running s p (virt/4096) d t w) :
    s.machine.ptePtr virt = (t, virt/4096%1024) := by
  rw [ptePtr_eq (running_recursive hl h), h.loaded, (tableAt_some h.table).2.2.2]

theorem running_pde (hl : Layout reserved s) (h : Running s p (virt/4096) d t w) :
    present (s.machine.read (s.machine.pdePtr (virt/4194304))) = true := by
  have hdiv : virt/4194304 = virt/4096/1024 := by omega
  obtain ⟨hi, hp, -, -⟩ := tableAt_some h.table
  rw [hdiv, pdePtr_eq (running_recursive hl h) (by omega), Machine.read, h.loaded]
  exact hp

theorem running_read (hl : Layout reserved s) (h : Running s p (virt/4096) d t w) :
    s.machine.read (s.machine.ptePtr virt) = w := by
  rw [running_ptePtr hl h, Machine.read, h.word]

end Access

/-- A frame that is mapped holds no table. -/
theorem mapped_not_own (hs : Sound reserved s) {x : ℕ × ℕ} {w : ℕ} (h : ptes s x = some w) :
    ¬ Own reserved s (frameOf w) := hs.ledger.apart x _ (mapped_of h)

section Store

variable {p n d t w : ℕ}

/-- A store to a writable page reaches no other process. -/
theorem write_spec (hs : Sound reserved s) (h : Running s p n d t w) (hw : writable w = true)
    (k : Fin 1024) (value : ℕ) :
    Sound reserved ⟨s.machine.write (frameOf w, k) value, s.procs⟩ ∧
    view ⟨s.machine.write (frameOf w, k) value, s.procs⟩ =
      ⟨(view s).live, setSlot (view s).page (p, n)
        (some ((pageOf s.machine w).set k value))⟩ := by
  have hx := running_ptes h
  have hno := mapped_not_own hs hx
  have hmem : ∀ f, Own reserved s f → ∀ j, (s.machine.write (frameOf w, k) value).mem f j =
      if f = t ∧ j = n%1024 then w else s.machine.mem f j := by
    intro f hf j
    have hne : f ≠ frameOf w := fun he => hno (he ▸ hf)
    rw [write_mem, if_neg (fun hh => hne hh.1)]
    split_ifs with hh
    · rw [hh.1, hh.2, h.word]
    · rfl
  have hptes := ptes_update hs.layout h.dir h.table hmem
  rw [if_pos h.present, setSlot_self hx] at hptes
  constructor
  · apply sound_update hs h.dir h.table hmem rfl rfl (fun _ => hs.layout.user _ _ hx)
    · rw [if_pos h.present, setSlot_self (mapped_of hx)]
      exact hs.ledger
    · intro _ y hy hm
      exact hy (hs.sole _ _ hx hw y hm)
  · unfold view
    rw [hptes]
    congr 1
    funext y
    by_cases hy : y = (p, n)
    · rw [hy, setSlot_same, hx]
      simp only [Option.map_some, Option.some.injEq, pageOf, Page.set, Page.mk.injEq, and_true]
      funext j
      rw [write_mem]
      simp only [true_and, Fin.ext_iff]
    · rw [setSlot_ne _ _ hy]
      change (ptes s y).map _ = (ptes s y).map _
      cases hyw : ptes s y with
      | none => rfl
      | some w' =>
        -- the page of `y` lies in another frame
        have hne : frameOf w' ≠ frameOf w := fun he =>
          hy (hs.sole _ _ hx hw y (by rw [mapped_of hyw, he]))
        simp only [Option.map_some, Option.some.injEq, pageOf, Page.mk.injEq, and_true]
        funext j
        rw [write_mem, if_neg (fun hh => hne hh.1)]

/-- A changed table entry that shows the same page leaves the view alone. -/
theorem view_update (hs : Sound reserved s) (h : Running s p n d t w) {m' : Machine} {w' : ℕ}
    (hmem : ∀ f, Own reserved s f → ∀ k, m'.mem f k =
      if f = t ∧ k = n%1024 then w' else s.machine.mem f k) (hp : present w' = true)
    (hpage : pageOf m' w' = pageOf s.machine w)
    (hother : ∀ y v, ptes s y = some v → m'.mem (frameOf v) = s.machine.mem (frameOf v)) :
    view ⟨m', s.procs⟩ = view s := by
  unfold view
  rw [ptes_update hs.layout h.dir h.table hmem, if_pos hp]
  congr 1
  funext y
  by_cases hy : y = (p, n)
  · rw [hy, setSlot_same, running_ptes h, Option.map_some, Option.map_some, hpage]
  · rw [setSlot_ne _ _ hy]
    cases hyv : ptes s y with
    | none => rfl
    | some v => simp only [Option.map_some, pageOf, hother y v hyv]

/-- What a fault handler must leave behind: the same pages, this one writable. -/
def Upgraded (reserved : ℕ → Prop) (s : World) (p n d : ℕ) (m' : Machine) : Prop :=
  Sound reserved ⟨m', s.procs⟩ ∧ view ⟨m', s.procs⟩ = view s ∧
    ∃ t w', Running ⟨m', s.procs⟩ p n d t w' ∧ writable w' = true

theorem running_update (hs : Sound reserved s) (h : Running s p n d t w) {m' : Machine} {w' : ℕ}
    (hmem : ∀ f, Own reserved s f → ∀ k, m'.mem f k =
      if f = t ∧ k = n%1024 then w' else s.machine.mem f k) (hc : m'.cr3 = s.machine.cr3)
    (hp : present w' = true) : Running ⟨m', s.procs⟩ p n d t w' := by
  refine ⟨h.dir, hc.trans h.loaded, ?_, ?_, hp⟩
  · exact (tableAt_congr (tableAt_update hs.layout h.dir h.table hmem h.dir _)).trans h.table
  · exact (hmem t (own_table h.dir h.table) _).trans (if_pos ⟨rfl, rfl⟩)

theorem present_entry_seven (f : ℕ) : present (entry f 7) = true := by
  rw [present_entry _ (by decide)]
  decide

theorem writable_entry_seven (f : ℕ) : writable (entry f 7) = true := by
  rw [writable_entry _ (by decide)]
  decide

theorem user_entry_seven (f : ℕ) : user (entry f 7) = true := by
  rw [user_entry _ (by decide)]
  decide

theorem pageOf_seven (m : Machine) (f : ℕ) {w : ℕ} (m' : Machine) (hc : cow w = true)
    (h : ∀ k < 1024, m'.mem f k = m.mem (frameOf w) k) : pageOf m' (entry f 7) = pageOf m w := by
  unfold pageOf
  rw [frameOf_entry _ (by decide), writable_entry_seven, hc, Bool.or_true, Bool.true_or]
  congr 1
  funext k
  exact h k k.isLt

/-- The only process that maps the frame takes it over. -/
theorem upgrade_sole (hs : Sound reserved s) (h : Running s p n d t w) (hc : cow w = true)
    (hrc : s.machine.pmm.refcounts (frameOf w) = 1) :
    Upgraded reserved s p n d (s.machine.write (t, n%1024) (entry (frameOf w) 7)) := by
  have hx := running_ptes h
  have hm := mapped_of hx
  have hframe : frameOf (entry (frameOf w) 7) = frameOf w := frameOf_entry _ (by decide)
  have hmem : ∀ f, Own reserved s f → ∀ k,
      (s.machine.write (t, n%1024) (entry (frameOf w) 7)).mem f k =
      if f = t ∧ k = n%1024 then entry (frameOf w) 7 else s.machine.mem f k := fun f _ k =>
    write_mem s.machine _ _ f k
  have hdata : ∀ y v, ptes s y = some v →
      (s.machine.write (t, n%1024) (entry (frameOf w) 7)).mem (frameOf v) =
        s.machine.mem (frameOf v) := by
    intro y v hv
    funext k
    rw [write_mem, if_neg]
    exact fun hh => mapped_not_own hs hv (hh.1 ▸ own_table h.dir h.table)
  have hcount := hs.ledger.counted _ (mapped_not_own hs hx)
  refine ⟨?_, ?_, t, _, running_update hs h hmem rfl (present_entry_seven _),
    writable_entry_seven _⟩
  · apply sound_update hs h.dir h.table hmem rfl rfl (fun _ => user_entry_seven _)
    · rw [if_pos (present_entry_seven _), hframe, setSlot_self hm]
      exact hs.ledger
    · intro _ y hy hmy
      rw [hframe] at hmy
      exact hy (sole_holder (hcount.symm.trans hrc) hm hmy)
  · apply view_update hs h hmem (present_entry_seven _) _ hdata
    apply pageOf_seven _ _ _ hc
    intro k _
    rw [hdata _ _ hx]

/-- A process that shares the frame gets a copy. -/
theorem upgrade_copy (hs : Sound reserved s) (h : Running s p n d t w) (hc : cow w = true)
    {new : ℕ} (hnew : s.machine.pmm.allocFrame.1 = new) (h0 : new ≠ 0) {m' : Machine}
    (hcr : m'.cr3 = s.machine.cr3) (hkd : m'.kernelDirectory = s.machine.kernelDirectory)
    (hpmm : m'.pmm = s.machine.pmm.allocFrame.2.freeFrame (frameOf w))
    (hmem : ∀ f k, m'.mem f k = if f = t ∧ k = n%1024 then entry new 7
      else if f = new ∧ k < 1024 then s.machine.mem (frameOf w) k else s.machine.mem f k) :
    Upgraded reserved s p n d m' := by
  have hx := running_ptes h
  have hm := mapped_of hx
  rw [← hnew] at h0
  obtain ⟨hl1, hfree, hown, hlt, hmax, hone⟩ := ledger_alloc_own hs.ledger h0
  rw [hnew] at hl1 hfree hown hlt h0 hone
  generalize s.machine.pmm.allocFrame.2 = pmm1 at hpmm hl1 hmax hone
  have htown : Own reserved s t := own_table h.dir h.table
  have htnew : t ≠ new := fun he => hown (he ▸ htown)
  have hwnew : new ≠ frameOf w := fun he => hfree _ (he ▸ hm)
  have hmem' : ∀ f, Own reserved s f → ∀ k, m'.mem f k =
      if f = t ∧ k = n%1024 then entry new 7 else s.machine.mem f k := by
    intro f hf k
    rw [hmem f k, if_neg (show ¬ (f = new ∧ k < 1024) from fun hh => hown (hh.1 ▸ hf))]
  have hdata : ∀ y v, ptes s y = some v → m'.mem (frameOf v) = s.machine.mem (frameOf v) := by
    intro y v hv
    funext k
    have h1 : frameOf v ≠ t := fun he => mapped_not_own hs hv (he ▸ htown)
    have h2 : frameOf v ≠ new := fun he => hfree y (by rw [mapped_of hv, he])
    rw [hmem, if_neg (fun hh => h1 hh.1), if_neg (fun hh => h2 hh.1)]
  have hframe : frameOf (entry new 7) = new := frameOf_entry _ (by decide)
  have hsame := freeFrame_same pmm1 hwnew
  refine ⟨?_, ?_, t, _, running_update hs h hmem' hcr (present_entry_seven _),
    writable_entry_seven _⟩
  · apply sound_update hs h.dir h.table hmem' hkd _ (fun _ => user_entry_seven _)
    · rw [if_pos (present_entry_seven _), hframe, hpmm]
      -- the old frame is dropped first, then the slot takes the new one
      have hl2 := ledger_drop hl1 hm
      have hl3 := ledger_give (x := (p, n)) hl2 hown h0
        (by rw [freeFrame_maxFrames, hmax]; exact hlt) (hsame.2.trans hone)
        (setSlot_same _ _ _) (hs.layout.pids p d h.dir)
      apply ledger_congr hl3 _ (fun _ => Iff.rfl)
      intro y
      unfold setSlot
      split_ifs <;> rfl
    · intro _ y _ hmy
      rw [hframe] at hmy
      exact hfree y hmy
    · rw [hpmm, freeFrame_maxFrames, hmax]
  · apply view_update hs h hmem' (present_entry_seven _) _ hdata
    apply pageOf_seven _ _ _ hc
    intro k hk
    rw [hmem, if_neg (fun hh => htnew hh.1.symm), if_pos ⟨rfl, hk⟩]

/-- The handler of a fault on a mapped page that is not writable. -/
theorem cowHandleFault_spec (hs : Sound reserved s) {virt : ℕ}
    (h : Running s p (virt/4096) d t w) :
    (cow w = true ∧ (s.machine.cowHandleFault virt 7).1 = true ∧
      Upgraded reserved s p (virt/4096) d (s.machine.cowHandleFault virt 7).2) ∨
    (cow w = true ∧ (s.machine.cowHandleFault virt 7).1 = false) ∨
    (cow w = false ∧ s.machine.cowHandleFault virt 7 = (false, s.machine)) := by
  have hx := running_ptes h
  have hlt := (hs.ledger.held _ _ (mapped_of hx)).2.1
  have hrc : s.machine.pmm.getRefcount (frameOf w) = s.machine.pmm.refcounts (frameOf w) := by
    rw [Pmm.getRefcount, if_neg (by omega)]
  have hguard : (!Nat.testBit 7 0 || !Nat.testBit 7 1) = false := by decide
  have htown : Own reserved s t := own_table h.dir h.table
  unfold Machine.cowHandleFault
  rw [hguard, if_neg (by simp), running_pde hs.layout h, if_neg (by simp)]
  dsimp only
  rw [running_read hs.layout h, running_ptePtr hs.layout h, hrc]
  cases hc : cow w with
  | false =>
    rw [if_pos (by simp)]
    exact Or.inr (Or.inr ⟨rfl, rfl⟩)
  | true =>
    rw [if_neg (by simp)]
    by_cases h1 : s.machine.pmm.refcounts (frameOf w) = 1
    · rw [if_pos h1]
      exact Or.inl ⟨rfl, rfl, upgrade_sole hs h hc h1⟩
    · rw [if_neg h1]
      by_cases h0 : s.machine.allocFrame.1 = 0
      · simp only [h0, if_true]
        exact Or.inr (Or.inl ⟨trivial, trivial⟩)
      · simp only [h0, if_false]
        refine Or.inl ⟨trivial, trivial, ?_⟩
        have hnew := Machine.allocFrame_fst s.machine
        have hpmm := Machine.allocFrame_pmm s.machine
        have hmem := Machine.allocFrame_mem s.machine
        have hcr := Machine.allocFrame_cr3 s.machine
        have hkd := Machine.allocFrame_kernelDirectory s.machine
        generalize s.machine.allocFrame = a at *
        obtain ⟨new, m1⟩ := a
        dsimp only at *
        refine upgrade_copy hs h hc hnew.symm h0 ?_ ?_ ?_ ?_
        · exact hcr
        · exact hkd
        · rw [← hpmm, ← decRef_eq]
          rfl
        · intro f k
          rw [write_mem]
          split_ifs with h2 h3
          · rfl
          · exact (if_pos h3).trans (congrFun (congrFun hmem _) _)
          · exact (if_neg h3).trans (congrFun (congrFun hmem _) _)

theorem upgraded_write {virt value : ℕ} {m' : Machine}
    (h : Upgraded reserved s p (virt/4096) d m') (hw : ptes s (p, virt/4096) = some w)
    {r : Machine × Outcome}
    (hr : (m'.userAccess virt true).map (fun l => (m'.write l value, Outcome.done)) = some r) :
    Sound reserved ⟨r.1, s.procs⟩ ∧ r.2 = .done ∧ view ⟨r.1, s.procs⟩ =
      ⟨(view s).live, setSlot (view s).page (p, virt/4096)
        (some ((pageOf s.machine w).set (wordIndex virt) value))⟩ := by
  obtain ⟨hs', hview, t', w', hrun, hw'⟩ := h
  have hacc := running_access hs'.layout hrun true
  rw [if_pos (Or.inr hw')] at hacc
  rw [hacc, Option.map_some] at hr
  obtain rfl := Option.some.inj hr
  obtain ⟨h1, h2⟩ := write_spec hs' hrun hw' (wordIndex virt) value
  have hpage : pageOf m' w' = pageOf s.machine w := by
    have := congrFun (congrArg Reference.page hview) (p, virt/4096)
    simp only [view, running_ptes hrun, hw, Option.map_some, Option.some.injEq] at this
    exact this
  refine ⟨h1, rfl, h2.trans ?_⟩
  rw [hpage, hview]

/-- A store: either the page of this process alone changes, or nothing does. -/
theorem storeWord_spec (hs : Sound reserved s) {virt value : ℕ}
    (h : Running s p (virt/4096) d t w) {r : Machine × Outcome}
    (hr : storeWord s.machine virt value = some r) :
    Sound reserved ⟨r.1, s.procs⟩ ∧
    ((pageOf s.machine w).writable = true ∧ r.2 = .done ∧ view ⟨r.1, s.procs⟩ =
      ⟨(view s).live, setSlot (view s).page (p, virt/4096)
        (some ((pageOf s.machine w).set (wordIndex virt) value))⟩ ∨
    (pageOf s.machine w).writable = false ∧ r.2 = .fault ∧ view ⟨r.1, s.procs⟩ = view s) := by
  have hx := running_ptes h
  have hacc := running_access hs.layout h true
  have hpde : present (s.machine.mem d (virt/4096/1024)) = true := (tableAt_some h.table).2.1
  have hcode : s.machine.errorCode virt true = 7 := by
    rw [Machine.errorCode, running_walk h]
    simp only [hpde, h.present]
    rfl
  cases hw : writable w with
  | true =>
    have hup : Upgraded reserved s p (virt/4096) d s.machine := ⟨hs, rfl, t, w, h, hw⟩
    have hr' : (s.machine.userAccess virt true).map
        (fun l => (s.machine.write l value, Outcome.done)) = some r := by
      rw [if_pos (Or.inr hw)] at hacc
      rw [← hr, storeWord, hacc]
      rfl
    obtain ⟨h1, h2, h3⟩ := upgraded_write hup hx hr'
    exact ⟨h1, Or.inl ⟨by simp [pageOf, hw], h2, h3⟩⟩
  | false =>
    rw [if_neg (by simp [hw])] at hacc
    unfold storeWord at hr
    rw [hacc, hcode, running_walk h] at hr
    simp only at hr
    rcases cowHandleFault_spec hs h with ⟨hc, h1, hup⟩ | ⟨hc, h1⟩ | ⟨hc, heq⟩
    · rw [h1, if_pos rfl] at hr
      obtain ⟨h2, h3, h4⟩ := upgraded_write hup hx hr
      exact ⟨h2, Or.inl ⟨by simp [pageOf, hc], h3, h4⟩⟩
    · rw [h1, hc, if_neg (by simp), if_pos rfl] at hr
      exact absurd hr (by simp)
    · rw [heq, hc] at hr
      simp only [Bool.false_eq_true, if_false, Option.some.injEq] at hr
      subst hr
      exact ⟨hs, Or.inr ⟨by simp [pageOf, hw, hc], rfl, rfl⟩⟩

end Store

section Unmap

variable {p d t w virt : ℕ}

theorem sbrkPage_eq (m : Machine) (v : ℕ) : m.sbrkPage v = m.munmapPage v := by
  unfold Machine.sbrkPage Machine.munmapPage
  by_cases h : m.getPhysical v = 0
  · rw [if_pos h, if_pos h]
  · rw [if_neg h, if_neg h]
    generalize frameOf (m.getPhysical v) = f
    by_cases hp : present (m.read (m.pdePtr (v/4194304))) = true
    · have hp' : present ((m.freeFrame f).read ((m.freeFrame f).pdePtr (v/4194304))) = true := hp
      rw [Machine.unmapPage, Machine.unmapPage, if_pos hp, if_pos hp']
      rfl
    · have hp' : ¬ present ((m.freeFrame f).read ((m.freeFrame f).pdePtr (v/4194304))) = true := hp
      rw [Machine.unmapPage, Machine.unmapPage, if_neg hp, if_neg hp']

theorem munmapPage_spec (hs : Sound reserved s) (h : Running s p (virt/4096) d t w) :
    Sound reserved ⟨s.machine.munmapPage virt, s.procs⟩ ∧
    view ⟨s.machine.munmapPage virt, s.procs⟩ =
      ⟨(view s).live, setSlot (view s).page (p, virt/4096) none⟩ := by
  have hx := running_ptes h
  have hm := mapped_of hx
  have h0 := (hs.ledger.held _ _ hm).1
  have hphys : s.machine.getPhysical virt = entry (frameOf w) (virt%4096) := by
    rw [Machine.getPhysical, running_pde hs.layout h, running_read hs.layout h, h.present]
    simp
  have heq : s.machine.munmapPage virt =
      (s.machine.write (t, virt/4096%1024) 0).freeFrame (frameOf w) := by
    have hne : entry (frameOf w) (virt%4096) ≠ 0 := by
      unfold entry
      omega
    rw [Machine.munmapPage, hphys, if_neg hne, frameOf_entry _ (by omega), Machine.unmapPage,
      if_pos (running_pde hs.layout h), running_ptePtr hs.layout h]
  rw [heq]
  have hmem : ∀ f, Own reserved s f → ∀ k,
      ((s.machine.write (t, virt/4096%1024) 0).freeFrame (frameOf w)).mem f k =
      if f = t ∧ k = virt/4096%1024 then 0 else s.machine.mem f k := fun f _ k =>
    write_mem s.machine _ _ f k
  have hzero : present 0 = false := by decide
  constructor
  · apply sound_update hs h.dir h.table hmem rfl (freeFrame_maxFrames _ _)
    · intro hp
      exact absurd hp (by simp [hzero])
    · rw [hzero, if_neg (by simp)]
      exact ledger_drop hs.ledger hm
    · intro hp
      exact absurd hp (by simp [hzero])
  · unfold view
    rw [ptes_update hs.layout h.dir h.table hmem, hzero]
    congr 1
    funext y
    by_cases hy : y = (p, virt/4096)
    · rw [hy, setSlot_same, setSlot_same]
      rfl
    · rw [setSlot_ne _ _ hy, setSlot_ne _ _ hy]
      change (ptes s y).map _ = (ptes s y).map _
      cases hyv : ptes s y with
      | none => rfl
      | some v =>
        have hne : frameOf v ≠ t := fun he =>
          mapped_not_own hs hyv (he ▸ own_table h.dir h.table)
        simp only [Option.map_some, Option.some.injEq, pageOf, Page.mk.injEq, and_true]
        funext k
        exact (write_mem s.machine _ _ _ _).trans (if_neg fun hh => hne hh.1)

end Unmap

end Vlsmc.CowRefinement
