import Vlsmc.AddressSpaceSteps
import Vlsmc.CountedLoops

/-!
# Making and tearing down address spaces

A new directory gets the entries of the kernel. When a directory is torn down,
its pages lose a reference each and its tables go back to the manager; nothing
that another directory leads to is touched.
-/

set_option autoImplicit false

namespace Vlsmc.AddressSpaceLifetimes
open Vlsmc.CountedLoops
open Vlsmc.Words Vlsmc.SharedFrames Vlsmc.PhysicalMemory Vlsmc.FrameHolders Vlsmc.Paging
open Vlsmc.CowClone Vlsmc.AddressSpaces Vlsmc.AddressSpaceSteps

/-- The common entries are entries of the kernel. -/
def Proper (b : Base) : Prop :=
  ∀ i w, b.low i = some w → i < 1023 ∧ present w = true ∧ user w = false

variable {b : Base} {R : ℕ → Prop} {dirs : Finset ℕ} {m m' : Machine} {d t : ℕ}

section Create

/-- What the loaded directory must look like when another one is made from it. It need
not be live: `sys_exec` has just torn it down. -/
structure Loaded (b : Base) (R : ℕ → Prop) (m : Machine) : Prop where
  recursive : m.mem m.cr3 1023 = entry m.cr3 3
  shared : ∀ i < 1023, present (m.mem m.cr3 i) = true → user (m.mem m.cr3 i) = false →
    R (frameOf (m.mem m.cr3 i)) ∧ (b.low i = none → ¬b.fixed (frameOf (m.mem m.cr3 i)))
  low : ∀ i w, b.low i = some w → m.mem m.cr3 i = w

theorem loaded_of_live (h : Sound b R dirs m) (hl : m.cr3 ∈ dirs) : Loaded b R m :=
  ⟨h.complete.recursive _ hl, h.keeps.shared _ hl, h.complete.low _ hl⟩

/-- The entries that a new directory gets. -/
def sharedWord (m : Machine) (k : ℕ) : ℕ :=
  if k < 1023 ∧ present (m.mem m.cr3 k) = true ∧ user (m.mem m.cr3 k) = false then m.mem m.cr3 k else 0

/-- The loop of `create_address_space`. -/
theorem shareEntries_spec (nd : ℕ) (hrec : frameOf (m.mem m.cr3 1023) = m.cr3) (hne : nd ≠ m.cr3)
    (hzero : ∀ k < 1024, m.mem nd k = 0) : ∀ n ≤ 1024, ∀ r,
      (List.range n).foldl (Machine.shareEntry nd) m = r →
      r.pmm = m.pmm ∧ SameSpace m r ∧ (∀ f, f ≠ nd → r.mem f = m.mem f) ∧
        ∀ k < 1024, r.mem nd k = if k < n then sharedWord m k else 0 := by
  intro n
  induction n with
  | zero =>
    rintro - r rfl
    exact ⟨rfl, ⟨rfl, rfl⟩, fun _ _ => rfl, fun k hk => hzero k hk⟩
  | succ n ih =>
    intro hn r' hr'
    obtain ⟨h1, h2, h3, h4⟩ := ih (by omega) _ rfl
    simp only [List.range_succ, List.foldl_append, List.foldl_cons, List.foldl_nil] at hr'
    subst hr'
    generalize (List.range n).foldl (Machine.shareEntry nd) m = r at *
    have hdir : r.mem r.cr3 = m.mem m.cr3 := by rw [h2.1, h3 _ hne.symm]
    have hrec' : frameOf (r.mem r.cr3 1023) = r.cr3 := by rw [hdir, hrec, h2.1]
    have hread : r.read (r.pdePtr n) = m.mem m.cr3 n := by
      rw [pdePtr_eq hrec' (by omega), Machine.read, hdir]
    have hskip : sharedWord m n = 0 → r.pmm = m.pmm ∧ SameSpace m r ∧
        (∀ f, f ≠ nd → r.mem f = m.mem f) ∧
        ∀ k < 1024, r.mem nd k = if k < n+1 then sharedWord m k else 0 := by
      intro hz
      refine ⟨h1, h2, h3, fun k hk => ?_⟩
      rw [h4 k hk]
      by_cases hkn : k = n
      · rw [hkn, if_neg (by omega), if_pos (by omega), hz]
      · by_cases hlt : k < n
        · rw [if_pos hlt, if_pos (by omega)]
        · rw [if_neg hlt, if_neg (by omega)]
    unfold Machine.shareEntry
    by_cases h1023 : n = 1023
    · rw [if_pos h1023]
      exact hskip (if_neg fun hc => absurd hc.1 (by omega))
    · rw [if_neg h1023, hread]
      split_ifs with hc
      · simp only [Bool.and_eq_true, Bool.not_eq_true'] at hc
        refine ⟨h1, h2, fun f hf => ?_, fun k hk => ?_⟩
        · rw [← h3 f hf]
          funext k
          exact if_neg fun hcc => hf hcc.1
        · rw [write_mem]
          by_cases hkn : k = n
          · rw [if_pos ⟨rfl, hkn⟩, hkn, if_pos (by omega), sharedWord, if_pos ⟨by omega, hc⟩]
          · rw [if_neg fun hcc => hkn hcc.2, h4 k hk]
            by_cases hlt : k < n
            · rw [if_pos hlt, if_pos (by omega)]
            · rw [if_neg hlt, if_neg (by omega)]
      · apply hskip
        apply if_neg
        rintro ⟨-, hp, hu⟩
        exact hc (by rw [hp, hu]; rfl)

theorem createAddressSpace_eq (h0 : m.allocFrame.1 ≠ 0) : m.createAddressSpace =
    (m.allocFrame.1, ((List.range 1024).foldl (Machine.shareEntry m.allocFrame.1)
      (m.allocFrame.2.clear m.allocFrame.1)).write (m.allocFrame.1, 1023)
      (entry m.allocFrame.1 3)) := by
  rw [Machine.createAddressSpace]
  exact if_neg h0

theorem createAddressSpace_fst (h0 : m.allocFrame.1 ≠ 0) :
    m.createAddressSpace.1 = m.allocFrame.1 := by
  rw [createAddressSpace_eq h0]

/-- The frame of the new directory and what the loop leaves in memory. -/
theorem createAddressSpace_spec (hl : Loaded b R m)
    (hne : m.allocFrame.1 ≠ m.cr3) (h0 : m.allocFrame.1 ≠ 0) :
    m.createAddressSpace.1 = m.allocFrame.1 ∧
      m.createAddressSpace.2.pmm = m.allocFrame.2.pmm ∧ SameSpace m m.createAddressSpace.2 ∧
      (∀ f, f ≠ m.allocFrame.1 → m.createAddressSpace.2.mem f = m.mem f) ∧
      (∀ k < 1023, m.createAddressSpace.2.mem m.allocFrame.1 k = sharedWord m k) ∧
      m.createAddressSpace.2.mem m.allocFrame.1 1023 = entry m.allocFrame.1 3 := by
  have heq := createAddressSpace_eq h0
  generalize m.createAddressSpace = c at *
  have hmem1 := Machine.allocFrame_mem m
  have hsp1 : SameSpace m m.allocFrame.2 := ⟨rfl, rfl⟩
  generalize m.allocFrame.1 = nd at *
  generalize m.allocFrame.2 = m1 at *
  obtain ⟨r, hr⟩ : ∃ r, (List.range 1024).foldl (Machine.shareEntry nd) (m1.clear nd) = r := ⟨_, rfl⟩
  rw [hr] at heq
  subst heq
  have hmem2 : ∀ f, f ≠ nd → (m1.clear nd).mem f = m.mem f := by
    intro f hf
    rw [← hmem1]
    funext k
    exact if_neg fun hc => hf hc.1
  have hcr2 : (m1.clear nd).cr3 = m.cr3 := hsp1.1
  have hword : ∀ k, sharedWord (m1.clear nd) k = sharedWord m k := by
    intro k
    unfold sharedWord
    rw [hcr2, hmem2 _ hne.symm]
  obtain ⟨h1, h2, h3, h4⟩ := shareEntries_spec (m := m1.clear nd) nd
    (by rw [hcr2, hmem2 _ hne.symm, hl.recursive, frameOf_entry _ (by decide)])
    (by rwa [hcr2]) (fun k hk => if_pos ⟨rfl, hk⟩) 1024 le_rfl r hr
  refine ⟨rfl, h1, ⟨h2.1.trans hsp1.1, h2.2.trans hsp1.2⟩, fun f hf => ?_, fun k hk => ?_, ?_⟩
  · rw [← hmem2 f hf, ← h3 f hf]
    funext k
    exact if_neg fun hc => hf hc.1
  · dsimp only
    rw [write_mem, if_neg fun hc => absurd hc.2 (by omega), h4 k (by omega), if_pos (by omega), hword]
  · exact if_pos ⟨rfl, rfl⟩

theorem createAddressSpace_full (h0 : m.allocFrame.1 = 0) :
    m.createAddressSpace = (0, m.allocFrame.2) := by
  unfold Machine.createAddressSpace
  simp only [if_pos h0]

/-- A directory that is made is one more live directory. -/
theorem createAddressSpace_sound (hb : Proper b) (h : Sound b R dirs m) (hl : Loaded b R m)
    (hne : m.allocFrame.1 ≠ m.cr3) (h0 : m.allocFrame.1 ≠ 0) :
    Sound b R (insert m.createAddressSpace.1 dirs) m.createAddressSpace.2 := by
  obtain ⟨ht, hfix⟩ := taken_alloc h h0
  obtain ⟨h1, h2, -, h4, h5, h6⟩ := createAddressSpace_spec hl hne h0
  have hmem := Machine.allocFrame_mem m
  rw [h1]
  generalize m.createAddressSpace.2 = r at *
  generalize m.allocFrame.1 = nd at *
  have htr : Taken b R noGhost dirs r nd :=
    taken_mem ht hfix h2 fun g hg => by rw [h4 g hg, hmem]
  refine ⟨taken_insertDir htr (fun _ => rfl) hfix fun k hk hp => ?_, fun d hd => ?_,
    fun d hd i w hw => ?_⟩
  · rw [h5 k hk] at hp ⊢
    unfold sharedWord at hp ⊢
    split_ifs at hp ⊢ with hc
    · exact ⟨hc.2.2, hl.shared k hk hc.2.1 hc.2.2⟩
    · exact absurd hp (by decide)
  · rcases Finset.mem_insert.mp hd with rfl | hd
    · exact h6
    · rw [h4 d (taken_not_dir ht hd)]
      exact h.complete.recursive d hd
  · rcases Finset.mem_insert.mp hd with rfl | hd
    · obtain ⟨hi, hp, hu⟩ := hb i w hw
      have hcw := hl.low i w hw
      rw [h5 i hi, sharedWord, hcw, if_pos ⟨hi, hp, hu⟩]
    · rw [h4 d (taken_not_dir ht hd)]
      exact h.complete.low d hd i w hw

end Create

section Tearing

/-- Directory `d` has left the live ones and is being torn down: its tables from `n` on
are still there, and in table `n` the pages from `j` on. `m₀` is the memory before. -/
structure Tearing (b : Base) (R : ℕ → Prop) (dirs : Finset ℕ) (m₀ : Machine) (d n j : ℕ)
    (m : Machine) : Prop where
  keeps : Private b (fun s => R s ∨ s = d ∨ ∃ i, n ≤ i ∧ tableAt m₀ d i = some s)
    (fun x => if x.1 = d ∧ 1024*n+j ≤ x.2 then (pteAt m₀ d x.2).map frameOf else none) dirs m
  out : d ∉ dirs
  unused : ¬R d
  tables : ∀ i t, tableAt m₀ d i = some t → ¬R t ∧ t ≠ d
  distinct : ∀ i i' t, tableAt m₀ d i = some t → tableAt m₀ d i' = some t → i = i'
  shared : ∀ e ∈ dirs, ∀ i < 1023, present (m.mem e i) = true → user (m.mem e i) = false →
    R (frameOf (m.mem e i))
  fixed : ∀ s, b.fixed s → R s

variable {m₀ : Machine} {n j : ℕ}

theorem tearing_start (h : Private b R noGhost dirs m) (hd : d ∈ dirs) :
    Tearing b R (dirs.erase d) m d 0 0 m := by
  refine ⟨private_congr (private_removeDir h hd) (fun s => ?_) fun x => ?_, Finset.notMem_erase _ _,
    (h.dir d hd).2, fun i t ht => ?_, fun i i' t ht ht' => ?_, fun e he i hi hp hu => ?_,
    fun s hs => (h.kernel s hs).1⟩
  · simp only [Nat.zero_le, true_and]
  · by_cases hx : x.1 = d
    · rw [if_pos ⟨hx, by omega⟩, if_pos hx, ← hx, slots, if_pos (hx ▸ hd)]
    · rw [if_neg fun hc => hx hc.1, if_neg hx]
      rfl
  · exact ⟨(h.table d hd i t ht).1, fun he => (h.table d hd i t ht).2 (he ▸ hd)⟩
  · exact (h.tables d hd d hd i i' t ht ht').2
  · exact (h.shared e (Finset.mem_of_mem_erase he) i hi hp hu).1

/-- A page loses its reference. -/
theorem tearing_drop (h : Tearing b R dirs m₀ d n j m) (ht : tableAt m₀ d n = some t) (hj : j < 1024)
    (hp : present (m₀.mem t j) = true) :
    Tearing b R dirs m₀ d n (j+1) (m.decRef (frameOf (m₀.mem t j))) := by
  have hG : (pteAt m₀ d (1024*n+j)).map frameOf = some (frameOf (m₀.mem t j)) := by
    have ht' : tableAt m₀ d ((1024*n+j)/1024) = some t := by rw [page_div n hj, ht]
    rw [pteAt_table ht', page_mod n hj, if_pos hp, Option.map_some]
  have hpmm : (m.decRef (frameOf (m₀.mem t j))).pmm = m.pmm.freeFrame (frameOf (m₀.mem t j)) :=
    decRef_eq _ _
  have hmem : (m.decRef (frameOf (m₀.mem t j))).mem = m.mem := rfl
  have hdrop := private_dropGhost h.keeps (x := (d, 1024*n+j)) h.out
    ((if_pos ⟨rfl, le_rfl⟩).trans hG) hmem hpmm
  refine ⟨private_congr hdrop (fun _ => Iff.rfl) fun x => ?_, h.out, h.unused, h.tables, h.distinct,
    h.shared, h.fixed⟩
  by_cases hx : x = (d, 1024*n+j)
  · rw [hx, setSlot_same, if_neg fun hc => absurd hc.2 (by dsimp only; omega)]
  · rw [setSlot_ne _ _ hx]
    have hne : ¬(x.1 = d ∧ x.2 = 1024*n+j) := fun hc => hx (Prod.ext hc.1 hc.2)
    by_cases hc : x.1 = d ∧ 1024*n+j ≤ x.2
    · rw [if_pos hc, if_pos ⟨hc.1, by have := fun he => hne ⟨hc.1, he⟩; omega⟩]
    · rw [if_neg hc, if_neg fun hc' => hc ⟨hc'.1, by omega⟩]

/-- There was no page. -/
theorem tearing_skip (h : Tearing b R dirs m₀ d n j m) (ht : tableAt m₀ d n = some t) (hj : j < 1024)
    (hp : present (m₀.mem t j) = false) : Tearing b R dirs m₀ d n (j+1) m := by
  have hG : (pteAt m₀ d (1024*n+j)).map frameOf = none := by
    have ht' : tableAt m₀ d ((1024*n+j)/1024) = some t := by rw [page_div n hj, ht]
    rw [pteAt_table ht', page_mod n hj, hp]
    rfl
  refine ⟨private_congr h.keeps (fun _ => Iff.rfl) fun x => ?_, h.out, h.unused, h.tables,
    h.distinct, h.shared, h.fixed⟩
  by_cases hc : x.1 = d ∧ 1024*n+j ≤ x.2
  · rw [if_pos hc]
    by_cases he : x.2 = 1024*n+j
    · rw [if_neg fun hc' => absurd hc'.2 (by omega), he, hG]
    · rw [if_pos ⟨hc.1, by omega⟩]
  · rw [if_neg hc, if_neg fun hc' => hc ⟨hc'.1, by omega⟩]

/-- A table without pages goes back to the manager. -/
theorem tearing_free (h : Tearing b R dirs m₀ d n 1024 m) (ht : tableAt m₀ d n = some t) :
    Tearing b R dirs m₀ d (n+1) 0 (m.freeFrame t) := by
  obtain ⟨hR, htd⟩ := h.tables n t ht
  have hmem : (m.freeFrame t).mem = m.mem := rfl
  have hrel := private_release h.keeps (t := t) (Or.inr (Or.inr ⟨n, le_rfl, ht⟩))
    (fun hf => hR (h.fixed t hf)) (fun e he i hi hp hu heq => hR (heq ▸ h.shared e he i hi hp hu))
    hmem rfl
  refine ⟨private_congr hrel (fun s => ?_) fun x => ?_, h.out, h.unused, h.tables, h.distinct,
    h.shared, h.fixed⟩
  · constructor
    · rintro (hr | he | ⟨i, hi, hs⟩)
      · exact ⟨Or.inl hr, fun he => hR (he ▸ hr)⟩
      · exact ⟨Or.inr (Or.inl he), fun he' => htd (he' ▸ he)⟩
      · refine ⟨Or.inr (Or.inr ⟨i, by omega, hs⟩), fun he => ?_⟩
        have := h.distinct i n t (he ▸ hs) ht
        omega
    · rintro ⟨hr | he | ⟨i, hi, hs⟩, hne⟩
      · exact Or.inl hr
      · exact Or.inr (Or.inl he)
      · have hin : i ≠ n := by
          rintro rfl
          rw [ht] at hs
          exact hne (Option.some.inj hs).symm
        exact Or.inr (Or.inr ⟨i, by omega, hs⟩)
  · rw [Nat.mul_succ, Nat.add_zero]

/-- There was no table. -/
theorem tearing_none (h : Tearing b R dirs m₀ d n 0 m) (ht : tableAt m₀ d n = none) :
    Tearing b R dirs m₀ d (n+1) 0 m := by
  refine ⟨private_congr h.keeps (fun s => ?_) fun x => ?_, h.out, h.unused, h.tables, h.distinct,
    h.shared, h.fixed⟩
  · constructor
    · rintro (hr | he | ⟨i, hi, hs⟩)
      · exact Or.inl hr
      · exact Or.inr (Or.inl he)
      · exact Or.inr (Or.inr ⟨i, by omega, hs⟩)
    · rintro (hr | he | ⟨i, hi, hs⟩)
      · exact Or.inl hr
      · exact Or.inr (Or.inl he)
      · have hin : i ≠ n := by
          rintro rfl
          rw [ht] at hs
          exact absurd hs (by simp)
        exact Or.inr (Or.inr ⟨i, by omega, hs⟩)
  · by_cases hc : x.1 = d ∧ 1024*n+0 ≤ x.2
    · rw [if_pos hc]
      by_cases hc' : 1024*(n+1)+0 ≤ x.2
      · rw [if_pos ⟨hc.1, hc'⟩]
      · have hdiv : x.2/1024 = n := by omega
        rw [if_neg fun hcc => hc' hcc.2, pteAt, hdiv, ht]
        rfl
    · rw [if_neg hc, if_neg fun hc' => hc ⟨hc'.1, by omega⟩]

/-- Nothing is left but the directory itself. -/
theorem tearing_done (h : Tearing b R dirs m₀ d 1023 0 m) :
    Private b R noGhost dirs (m.freeFrame d) := by
  have hmem : (m.freeFrame d).mem = m.mem := rfl
  have hrel := private_release h.keeps (t := d) (Or.inr (Or.inl rfl))
    (fun hf => h.unused (h.fixed d hf))
    (fun e he i hi hp hu heq => h.unused (heq ▸ h.shared e he i hi hp hu)) hmem rfl
  refine private_congr hrel (fun s => ?_) fun x => ?_
  · constructor
    · exact fun hr => ⟨Or.inl hr, fun he => h.unused (he ▸ hr)⟩
    · rintro ⟨hr | he | ⟨i, hi, hs⟩, hne⟩
      · exact hr
      · exact absurd he hne
      · have := (tableAt_some hs).1
        omega
  · by_cases hc : x.1 = d ∧ 1024*1023+0 ≤ x.2
    · have hnone : tableAt m₀ d (x.2/1024) = none := by
        apply if_neg
        rintro ⟨hlt, -⟩
        omega
      rw [if_pos hc, pteAt, hnone]
      rfl
    · rw [if_neg hc]
      rfl

/-- The loop of `destroy_address_space` over the pages of a table. -/
theorem releasePages_tearing (h : Tearing b R dirs m₀ d n 0 m) (hm : m.mem = m₀.mem)
    (ht : tableAt m₀ d n = some t) : ∀ k ≤ 1024, ∀ r,
      (List.range k).foldl (fun m j => if present (m.mem t j) then m.decRef (frameOf (m.mem t j))
        else m) m = r → Tearing b R dirs m₀ d n k r ∧ r.mem = m₀.mem ∧ SameSpace m r := by
  rintro k hk r rfl
  refine foldl_range (P := fun k r => Tearing b R dirs m₀ d n k r ∧ r.mem = m₀.mem ∧ SameSpace m r)
    ⟨h, hm, rfl, rfl⟩ k ?_
  rintro j hj r ⟨h1, h2, h3⟩
  rw [h2]
  cases hp : present (m₀.mem t j) with
  | true =>
    rw [if_pos rfl]
    exact ⟨tearing_drop h1 ht (by omega) hp, h2, h3⟩
  | false =>
    rw [if_neg (by simp)]
    exact ⟨tearing_skip h1 ht (by omega) hp, h2, h3⟩

theorem releaseEntry_tearing (h : Tearing b R dirs m₀ d n 0 m) (hm : m.mem = m₀.mem) (hn : n < 1023) :
    Tearing b R dirs m₀ d (n+1) 0 (m.releaseEntry d n) ∧ (m.releaseEntry d n).mem = m₀.mem ∧
      SameSpace m (m.releaseEntry d n) := by
  have hnone : (present (m₀.mem d n) = true → user (m₀.mem d n) = true → False) →
      tableAt m₀ d n = none := fun hno => if_neg fun hc => hno hc.2.1 hc.2.2
  unfold Machine.releaseEntry
  rw [if_neg (by omega), hm]
  cases hp : present (m₀.mem d n) with
  | false => exact ⟨tearing_none h (hnone fun hc => by simp [hp] at hc), hm, rfl, rfl⟩
  | true =>
    cases hu : user (m₀.mem d n) with
    | false => exact ⟨tearing_none h (hnone fun _ hc => by simp [hu] at hc), hm, rfl, rfl⟩
    | true =>
      have ht := tableAt_of (m := m₀) hn hp hu
      obtain ⟨r, hr⟩ : ∃ r, m.releaseTable (frameOf (m₀.mem d n)) = r := ⟨_, rfl⟩
      obtain ⟨h1, h2, h3⟩ := releasePages_tearing h hm ht 1024 le_rfl r
        (by rw [← hr, Machine.releaseTable])
      rw [if_neg (by simp), if_neg (by simp), hr]
      exact ⟨tearing_free h1 ht, h2, h3⟩

theorem releaseEntries_tearing (h : Tearing b R dirs m₀ d 0 0 m) (hm : m.mem = m₀.mem) :
    ∀ k ≤ 1023, ∀ r, (List.range k).foldl (fun m i => m.releaseEntry d i) m = r →
      Tearing b R dirs m₀ d k 0 r ∧ r.mem = m₀.mem ∧ SameSpace m r := by
  rintro k hk r rfl
  refine foldl_range (P := fun k r => Tearing b R dirs m₀ d k 0 r ∧ r.mem = m₀.mem ∧ SameSpace m r)
    ⟨h, hm, rfl, rfl⟩ k ?_
  rintro j hj r ⟨h1, h2, h3⟩
  obtain ⟨h4, h5, h6⟩ := releaseEntry_tearing h1 h2 (by omega)
  exact ⟨h4, h5, h6.1.trans h3.1, h6.2.trans h3.2⟩

/-- A loop over all entries that leaves the recursive one alone. -/
theorem foldl_entries (f : Machine → ℕ → Machine) (hf : ∀ m, f m 1023 = m) (m : Machine) :
    (List.range 1024).foldl f m = (List.range 1023).foldl f m := by
  have hr : List.range 1024 = List.range 1023 ++ [1023] := List.range_succ
  rw [hr, List.foldl_append]
  generalize (List.range 1023).foldl f m = r
  exact hf r

theorem destroyAddressSpace_eq (h0 : d ≠ 0) (hk : d ≠ m.kernelDirectory) :
    m.destroyAddressSpace d =
      ((List.range 1023).foldl (fun m i => m.releaseEntry d i) m).freeFrame d := by
  have hlast : ∀ m : Machine, m.releaseEntry d 1023 = m := fun m => by
    rw [Machine.releaseEntry, if_pos rfl]
  rw [Machine.destroyAddressSpace, if_neg h0, if_neg hk, foldl_entries _ hlast]

/-- A directory that is torn down takes nothing of the others along. -/
theorem destroyAddressSpace_sound (h : Sound b R dirs m) (hd : d ∈ dirs)
    (hk : d ≠ m.kernelDirectory) :
    Sound b R (dirs.erase d) (m.destroyAddressSpace d) ∧ (m.destroyAddressSpace d).mem = m.mem ∧
      SameSpace m (m.destroyAddressSpace d) := by
  have heq := destroyAddressSpace_eq (h.keeps.dir d hd).1 hk
  obtain ⟨r, hr⟩ : ∃ r, (List.range 1023).foldl (fun m i => m.releaseEntry d i) m = r := ⟨_, rfl⟩
  obtain ⟨h1, h2, h3⟩ := releaseEntries_tearing (tearing_start h.keeps hd) rfl 1023 le_rfl r hr
  rw [hr] at heq
  rw [heq]
  have hmem : (r.freeFrame d).mem = m.mem := h2
  refine ⟨⟨tearing_done h1, ?_, ?_⟩, hmem, h3⟩
  · intro e he
    rw [hmem]
    exact h.complete.recursive e (Finset.mem_of_mem_erase he)
  · intro e he
    rw [hmem]
    exact h.complete.low e (Finset.mem_of_mem_erase he)

end Tearing

end Vlsmc.AddressSpaceLifetimes
