import Vlsmc.AddressSpaceLifetimes

/-!
# Starting virtual memory

`VMM::init` maps the memory below `KERNEL_SPACE_END` to itself, and the self-test
of the kernel leaves a table without pages behind.
-/

set_option autoImplicit false

namespace Vlsmc.AddressSpaceBoot
open Vlsmc.Words Vlsmc.SharedFrames Vlsmc.PhysicalMemory Vlsmc.FrameHolders Vlsmc.Paging
open Vlsmc.CowClone Vlsmc.AddressSpaces Vlsmc.AddressSpaceSteps

variable {b : Base} {R : ℕ → Prop} {dirs : Finset ℕ} {m m' : Machine} {d t : ℕ}

section Test

/-- A write to a frame of the kernel that is no directory, no table and not fixed. -/
theorem sound_reserved (h : Sound b R dirs m) (hR : R t) (hfix : ¬b.fixed t) (hp : m'.pmm = m.pmm)
    (hmem : ∀ g, g ≠ t → m'.mem g = m.mem g) : Sound b R dirs m' := by
  have hd : ∀ d ∈ dirs, m'.mem d = m.mem d := fun d hd =>
    hmem d fun he => (h.keeps.dir d hd).2 (he ▸ hR)
  refine ⟨private_mem h.keeps hp (fun d hd' k _ => by rw [hd d hd']) (fun d hd' i s hs k _ => ?_)
    fun s hs => hmem s fun he => hfix (he ▸ hs), complete_dirs h.complete hd⟩
  rw [hmem s fun he => (h.keeps.table d hd' i s hs).1 (he ▸ hR)]

/-- The kernel tests frame `t` at address `virt`, below an entry of its own. -/
structure Testing (b : Base) (R : ℕ → Prop) (dirs : Finset ℕ) (m : Machine) (virt t : ℕ) : Prop where
  sound : Sound b R dirs m
  loaded : m.cr3 ∈ dirs
  reserved : R t
  unfixed : ¬b.fixed t
  loose : ∀ d ∈ dirs, ∀ i < 1023, present (m.mem d i) = true → user (m.mem d i) = false →
    frameOf (m.mem d i) ≠ t
  kernel : present (m.walk virt).1 = true → user (m.walk virt).1 = false
  page : present (m.walk virt).1 = true → frameOf (m.walk virt).2 = t

variable {virt : ℕ}

theorem testing_table (h : Testing b R dirs m virt t) (hi : virt/4194304 < 1023)
    (hp : present (m.walk virt).1 = true) :
    R (frameOf (m.walk virt).1) ∧ (b.low (virt/4194304) = none → ¬b.fixed (frameOf (m.walk virt).1)) :=
  h.sound.keeps.shared _ h.loaded _ hi hp (h.kernel hp)

theorem testing_store (h : Testing b R dirs m virt t) (hi : virt/4194304 < 1023) (value : ℕ) :
    Testing b R dirs (m.kernelStore virt value) virt t ∧
      SameSpace m (m.kernelStore virt value) := by
  unfold Machine.kernelStore
  split_ifs with hp
  · rw [Bool.and_eq_true] at hp
    rw [h.page hp.1]
    have hmem : ∀ g, g ≠ t → (m.write (t, virt%4096/4) value).mem g = m.mem g := by
      intro g hg
      funext k
      exact if_neg fun hc => hg hc.1
    have hdir : ∀ d ∈ dirs, (m.write (t, virt%4096/4) value).mem d = m.mem d := fun d hd =>
      hmem d fun he => (h.sound.keeps.dir d hd).2 (he ▸ h.reserved)
    have hwalk : (m.write (t, virt%4096/4) value).walk virt = m.walk virt := by
      have hne : frameOf (m.walk virt).1 ≠ t := h.loose _ h.loaded _ hi hp.1 (h.kernel hp.1)
      unfold Machine.walk
      rw [write_cr3, hdir _ h.loaded]
      exact congrArg _ (congrFun (hmem _ hne) _)
    refine ⟨⟨sound_reserved h.sound h.reserved h.unfixed rfl hmem, h.loaded, h.reserved, h.unfixed,
      fun d hd i hi => ?_, ?_, ?_⟩, rfl, rfl⟩
    · rw [hdir d hd]
      exact h.loose d hd i hi
    · rw [hwalk]
      exact h.kernel
    · rw [hwalk]
      exact h.page
  · exact ⟨h, rfl, rfl⟩

theorem testing_finish (h : Testing b R dirs m virt t)
    (hi : virt/4194304 < 1023) (hlow : b.low (virt/4194304) = none) :
    Sound b (fun s => R s ∧ s ≠ t) dirs ((m.unmapPage virt).freeFrame t) ∧
      SameSpace m ((m.unmapPage virt).freeFrame t) := by
  have hrec := recursive_loaded h.sound h.loaded
  have hpd : m.read (m.pdePtr (virt/4194304)) = (m.walk virt).1 := read_pde hrec (by omega)
  have hpt : m.ptePtr virt = (frameOf (m.walk virt).1, virt/4096%1024) := ptePtr_table hrec virt
  have hun : Sound b R dirs (m.unmapPage virt) ∧ SameSpace m (m.unmapPage virt) ∧
      ∀ d ∈ dirs, (m.unmapPage virt).mem d = m.mem d := by
    rw [Machine.unmapPage, hpd, hpt]
    split_ifs with hp
    · obtain ⟨hR, hfix⟩ := testing_table h hi hp
      have hmem : ∀ g, g ≠ frameOf (m.walk virt).1 →
          (m.write (frameOf (m.walk virt).1, virt/4096%1024) 0).mem g = m.mem g := by
        intro g hg
        funext k
        exact if_neg fun hc => hg hc.1
      exact ⟨sound_reserved h.sound hR (hfix hlow) rfl hmem, ⟨rfl, rfl⟩, fun d hd =>
        hmem d fun he => (h.sound.keeps.dir d hd).2 (he ▸ hR)⟩
    · exact ⟨h.sound, ⟨rfl, rfl⟩, fun _ _ => rfl⟩
  obtain ⟨hs, hspace, hdir⟩ := hun
  refine ⟨⟨private_release hs.keeps h.reserved h.unfixed (fun d hd i hi => ?_) rfl rfl,
    complete_dirs hs.complete fun _ _ => rfl⟩, hspace⟩
  rw [hdir d hd]
  exact h.loose d hd i hi

/-- `test_vmm` below an entry that is not one of user pages. -/
theorem testVmm_sound (h : Sound b R dirs m) (hl : m.cr3 ∈ dirs) (hlow : b.low 896 = none)
    (hk : present (m.mem m.cr3 896) = true → user (m.mem m.cr3 896) = false) :
    (∃ R', (∀ s, R s → R' s) ∧ Sound b R' dirs m.testVmm) ∧ SameSpace m m.testVmm := by
  unfold Machine.testVmm
  by_cases h0 : m.allocFrame.1 = 0
  · simp only [if_pos h0]
    exact ⟨⟨R, fun _ hr => hr, sound_allocFrame h⟩, rfl, rfl⟩
  · simp only [if_neg h0]
    obtain ⟨ht, hfix⟩ := taken_alloc h h0
    have hsp1 : SameSpace m m.allocFrame.2 := ⟨rfl, rfl⟩
    have hk1 : present (m.allocFrame.2.mem m.allocFrame.2.cr3 896) = true →
      user (m.allocFrame.2.mem m.allocFrame.2.cr3 896) = false := hk
    have hl1 : m.allocFrame.2.cr3 ∈ dirs := hl
    have h1 : Sound b (fun s => R s ∨ s = m.allocFrame.1) dirs m.allocFrame.2 :=
      ⟨ht.keeps, complete_dirs h.complete fun _ _ => rfl⟩
    generalize m.allocFrame.1 = f at *
    generalize m.allocFrame.2 = m1 at *
    have ha : PageAllowed b m1 0xE0000000 3 :=
      ⟨by decide, by decide, hlow, fun hu => absurd hu (by decide)⟩
    have hmap := mapPage_kept f h1 hl1 ha fun hc =>
      hc.elim (fun hu => absurd hu (by decide)) fun hu => absurd (hk1 hu.1) (by rw [hu.2]; simp)
    have hwalk := mapPage_walk f h1 hl1 ha
    have hent : ∀ d ∈ dirs, ∀ k, _ := fun d hd k =>
      mapPage_entries f (k := k) h1 hl1 ha (by decide) hd
    generalize m1.mapPage 0xE0000000 f 3 = m2 at *
    obtain ⟨R2, hsub, hs2⟩ := hmap.sound
    have hl2 : m2.cr3 ∈ dirs := by rwa [hmap.space.1]
    have htest : Testing b R2 dirs m2 0xE0000000 f := by
      refine ⟨hs2, hl2, hsub f (Or.inr rfl), hfix, fun d hd i hi hp hu => ?_, fun hp => ?_,
        fun hp => ?_⟩
      · rcases hent d hd i with he | ⟨s, he, hs⟩
        · rw [he] at hp hu ⊢
          exact ht.loose d hd i hi hp hu
        · rw [he, frameOf_entry _ (by decide)]
          exact fun hsf => hs (Or.inl (Or.inr hsf))
      · have hp' : present (m2.mem m2.cr3 896) = true := hp
        have hgoal : user (m2.mem m2.cr3 896) = false := by
          rcases hent m2.cr3 hl2 896 with he | ⟨s, he, -⟩
          · rw [he, hmap.space.1] at hp' ⊢
            exact hk1 hp'
          · rw [he, user_entry _ (by decide)]
            decide
        exact hgoal
      · rw [(hwalk hp).1, frameOf_pte]
    obtain ⟨ht3, hsp3⟩ := testing_store htest (by decide) 0xDEADBEEF
    obtain ⟨ht4, hsp4⟩ := testing_store ht3 (by decide) 0xCAFEBABE
    obtain ⟨hs5, hsp5⟩ := testing_finish ht4 (by decide) hlow
    refine ⟨⟨_, fun s hs => ⟨hsub s (Or.inl hs), fun he => ht.unused (he ▸ hs)⟩, hs5⟩, ?_⟩
    exact ⟨hsp5.1.trans (hsp4.1.trans (hsp3.1.trans (hmap.space.1.trans hsp1.1))),
      hsp5.2.trans (hsp4.2.trans (hsp3.2.trans (hmap.space.2.trans hsp1.2)))⟩

end Test

section Init

/-- The table of the kernel below entry `i`. -/
def kernelTable (m : Machine) (i : ℕ) : ℕ := frameOf (m.mem m.kernelDirectory i)

/-- The state that `VMM::init` leaves: the memory below `KERNEL_SPACE_END` is mapped to
itself by eight tables. -/
structure Booted (m : Machine) : Prop where
  loaded : m.cr3 = m.kernelDirectory
  dir : m.kernelDirectory ≠ 0 ∧ m.kernelDirectory < m.pmm.maxFrames ∧
    m.pmm.memoryBitmap m.kernelDirectory = true
  entries : ∀ i < 8, m.mem m.kernelDirectory i = entry (kernelTable m i) 3
  tables : ∀ i < 8, kernelTable m i < m.pmm.maxFrames ∧
    m.pmm.memoryBitmap (kernelTable m i) = true ∧ kernelTable m i ≠ m.kernelDirectory
  words : ∀ i < 8, ∀ j < 1024, m.mem (kernelTable m i) j = entry (1024*i+j) 3
  rest : ∀ i, 8 ≤ i → i < 1023 → m.mem m.kernelDirectory i = 0
  recursive : m.mem m.kernelDirectory 1023 = entry m.kernelDirectory 3

/-- The loop of `VMM::init` has mapped the pages below `n`. -/
structure MappedBelow (pageDir n : ℕ) (m : Machine) : Prop where
  dir : pageDir ≠ 0 ∧ pageDir < m.pmm.maxFrames ∧ m.pmm.memoryBitmap pageDir = true
  entries : ∀ i, 1024*i < n → m.mem pageDir i = entry (frameOf (m.mem pageDir i)) 3 ∧
    frameOf (m.mem pageDir i) < m.pmm.maxFrames ∧
    m.pmm.memoryBitmap (frameOf (m.mem pageDir i)) = true ∧ frameOf (m.mem pageDir i) ≠ pageDir
  distinct : ∀ i i', 1024*i < n → 1024*i' < n →
    frameOf (m.mem pageDir i) = frameOf (m.mem pageDir i') → i = i'
  words : ∀ i j, j < 1024 → 1024*i+j < n →
    m.mem (frameOf (m.mem pageDir i)) j = entry (1024*i+j) 3
  rest : ∀ i < 1024, n ≤ 1024*i → m.mem pageDir i = 0

variable {pageDir n : ℕ}

/-- The page goes into a table that is there. -/
theorem mappedBelow_page (h : MappedBelow pageDir n m) (hn : 1024*(n/1024) < n) :
    MappedBelow pageDir (n+1)
      (m.write (frameOf (m.mem pageDir (n/1024)), n%1024) (entry n 3)) := by
  obtain ⟨h1, h2, h3, h4⟩ := h.entries _ hn
  have hdir : ∀ k, (m.write (frameOf (m.mem pageDir (n/1024)), n%1024) (entry n 3)).mem pageDir k =
      m.mem pageDir k := fun k => if_neg fun hc => h4 hc.1.symm
  have hlt : ∀ i, 1024*i < n+1 → 1024*i < n := by
    intro i hi
    by_contra hge
    have : n = 1024*i := by omega
    omega
  refine ⟨h.dir, fun i hi => ?_, fun i i' hi hi' he => ?_, fun i j hj hij => ?_, fun i hi hni => ?_⟩
  · rw [hdir]
    exact h.entries i (hlt i hi)
  · rw [hdir, hdir] at he
    exact h.distinct i i' (hlt i hi) (hlt i' hi') he
  · rw [hdir, write_mem]
    by_cases hx : frameOf (m.mem pageDir i) = frameOf (m.mem pageDir (n/1024)) ∧ j = n%1024
    · have hi := h.distinct i (n/1024) (hlt i (by omega)) hn hx.1
      rw [if_pos hx]
      congr 1
      omega
    · rw [if_neg hx]
      have hne : 1024*i+j ≠ n := by
        intro he
        have hi : i = n/1024 := by omega
        exact hx ⟨by rw [hi], by omega⟩
      exact h.words i j hj (by omega)
  · rw [hdir]
    exact h.rest i hi (by omega)

/-- The page is the first one of a new table. -/
theorem mappedBelow_table (h : MappedBelow pageDir n m) (hn : 1024*(n/1024) = n)
    (h0 : m.allocFrame.1 ≠ 0) {m' : Machine}
    (hm' : ((m.allocFrame.2.clear m.allocFrame.1).write (pageDir, n/1024)
      (entry m.allocFrame.1 3)) = m') :
    MappedBelow pageDir (n+1) (m'.write (frameOf (m'.mem pageDir (n/1024)), n%1024) (entry n 3)) := by
  have hfst := Machine.allocFrame_fst m
  rcases allocFrame_cases m.pmm with hz | ⟨t, hmax, hbit, ht, hmaxp, hset, -, hsame⟩
  · exact absurd (hfst.trans hz) h0
  rw [hfst, ht] at hm' h0
  have hpmm : m'.pmm = m.pmm.allocFrame.2 := by
    rw [← hm']
    rfl
  have hmem : ∀ f k, m'.mem f k = if f = pageDir ∧ k = n/1024 then entry t 3
      else if f = t ∧ k < 1024 then 0 else m.mem f k := by
    intro f k
    rw [← hm']
    rfl
  -- the new table is none of the frames in use
  have hfree : ∀ g, m.pmm.memoryBitmap g = true → g ≠ t := by
    rintro g hg rfl
    rw [hg] at hbit
    exact absurd hbit (by simp)
  have htd : pageDir ≠ t := hfree _ h.dir.2.2
  have hdi : m'.mem pageDir (n/1024) = entry t 3 := by rw [hmem, if_pos ⟨rfl, rfl⟩]
  have hold : ∀ i, i ≠ n/1024 → m'.mem pageDir i = m.mem pageDir i := by
    intro i hi
    rw [hmem, if_neg fun hc => hi hc.2, if_neg fun hc => htd hc.1]
  rw [hdi, frameOf_entry _ (by decide)]
  have hdir : ∀ k, (m'.write (t, n%1024) (entry n 3)).mem pageDir k = m'.mem pageDir k := fun k =>
    if_neg fun hc => htd hc.1
  have hbelow : ∀ i, 1024*i < n+1 → i ≠ n/1024 → 1024*i < n := by omega
  have hp : (m'.write (t, n%1024) (entry n 3)).pmm = m.pmm.allocFrame.2 := hpmm
  refine ⟨⟨h.dir.1, ?_, ?_⟩, fun i hi => ?_, fun i i' hi hi' he => ?_, fun i j hj hij => ?_,
    fun i hi hni => ?_⟩
  · rw [hp, hmaxp]
    exact h.dir.2.1
  · rw [hp, (hsame _ htd).1]
    exact h.dir.2.2
  · rw [hdir, hp, hmaxp]
    by_cases hk : i = n/1024
    · rw [hk, hdi, frameOf_entry _ (by decide)]
      exact ⟨rfl, hmax, hset, htd.symm⟩
    · rw [hold i hk]
      obtain ⟨h1, h2, h3, h4⟩ := h.entries i (hbelow i hi hk)
      rw [(hsame _ (hfree _ h3)).1]
      exact ⟨h1, h2, h3, h4⟩
  · rw [hdir, hdir] at he
    have hnot : ∀ i, 1024*i < n+1 → i ≠ n/1024 → frameOf (m.mem pageDir i) ≠ t := fun i hi hk =>
      hfree _ (h.entries i (hbelow i hi hk)).2.2.1
    by_cases hk : i = n/1024
    · by_cases hk' : i' = n/1024
      · rw [hk, hk']
      · rw [hk, hdi, hold i' hk', frameOf_entry _ (by decide)] at he
        exact absurd he.symm (hnot i' hi' hk')
    · by_cases hk' : i' = n/1024
      · rw [hk', hdi, hold i hk, frameOf_entry _ (by decide)] at he
        exact absurd he (hnot i hi hk)
      · rw [hold i hk, hold i' hk'] at he
        exact h.distinct i i' (hbelow i hi hk) (hbelow i' hi' hk') he
  · rw [hdir]
    by_cases hk : i = n/1024
    · have hj0 : j = n%1024 := by omega
      rw [hk, hdi, frameOf_entry _ (by decide), hj0, write_mem, if_pos ⟨rfl, rfl⟩]
      congr 1
      omega
    · have hin : 1024*i < n := by omega
      obtain ⟨-, -, hb, hd⟩ := h.entries i hin
      have hne := hfree _ hb
      rw [hold i hk, write_mem, if_neg fun hc => hne hc.1, hmem, if_neg fun hc => hd hc.1,
        if_neg fun hc => hne hc.1]
      exact h.words i j hj (by omega)
  · rw [hdir, hold i (by omega)]
    exact h.rest i hi (by omega)

theorem mapLow_spec (c : ℕ) : ∀ n m, n+c = 8192 → MappedBelow pageDir n m → ∀ k,
    Machine.mapLow pageDir (List.range' n c) m = some k → MappedBelow pageDir 8192 k := by
  induction c with
  | zero =>
    intro n m hn h k hk
    have : n = 8192 := by omega
    rw [List.range'_zero, Machine.mapLow] at hk
    rw [← Option.some.inj hk, ← this]
    exact h
  | succ c ih =>
    intro n m hn h k hk
    rw [List.range'_succ, Machine.mapLow] at hk
    dsimp only at hk
    by_cases hin : 1024*(n/1024) < n
    · have hp : present (m.mem pageDir (n/1024)) = true := by
        rw [(h.entries _ hin).1, present_entry _ (by decide)]
        decide
      rw [if_pos hp] at hk
      exact ih (n+1) _ (by omega) (mappedBelow_page h hin) k hk
    · have hp : present (m.mem pageDir (n/1024)) = false := by
        rw [h.rest _ (by omega) (by omega)]
        decide
      rw [hp, if_neg (by simp)] at hk
      split_ifs at hk with h0
      exact ih (n+1) _ (by omega) (mappedBelow_table h (by omega) h0 rfl) k hk

theorem vmmInit_booted {k : Machine} (hk : m.vmmInit = some k) : Booted k := by
  unfold Machine.vmmInit at hk
  have hfst := Machine.allocFrame_fst m
  have hpmm := Machine.allocFrame_pmm m
  generalize m.allocFrame = a at *
  obtain ⟨pageDir, m1⟩ := a
  dsimp only at hk hfst hpmm
  split_ifs at hk with h0
  rw [Option.map_eq_some_iff] at hk
  obtain ⟨r, hr, rfl⟩ := hk
  rw [List.range_eq_range'] at hr
  have hstart : MappedBelow pageDir 0 (m1.clear pageDir) := by
    rcases allocFrame_cases m.pmm with hz | ⟨t, hmax, -, ht, hmaxp, hset, -, -⟩
    · exact absurd (hfst.trans hz) h0
    have hp : (m1.clear pageDir).pmm = m.pmm.allocFrame.2 := hpmm
    have hpd : pageDir = t := hfst.trans ht
    refine ⟨⟨h0, ?_, ?_⟩, fun i hi => absurd hi (by omega), fun i i' hi => absurd hi (by omega),
      fun i j hj hij => absurd hij (by omega), fun i hi _ => if_pos ⟨rfl, hi⟩⟩
    · rw [hp, hmaxp, hpd]
      exact hmax
    · rw [hp, hpd]
      exact hset
  have hend := mapLow_spec 8192 0 _ rfl hstart r hr
  have hdir : ∀ k, k ≠ 1023 → (r.write (pageDir, 1023) (entry pageDir 3)).mem pageDir k =
      r.mem pageDir k := fun k hk => if_neg fun hc => hk hc.2
  have htab : ∀ i < 8, ∀ j, (r.write (pageDir, 1023) (entry pageDir 3)).mem
      (frameOf (r.mem pageDir i)) j = r.mem (frameOf (r.mem pageDir i)) j := fun i hi j =>
    if_neg fun hc => (hend.entries i (by omega)).2.2.2 hc.1
  have hkt : ∀ i < 8, kernelTable { r.write (pageDir, 1023) (entry pageDir 3) with
      cr3 := pageDir, kernelDirectory := pageDir } i = frameOf (r.mem pageDir i) := fun i hi =>
    congrArg frameOf (hdir i (by omega))
  refine ⟨rfl, hend.dir, fun i hi => ?_, fun i hi => ?_, fun i hi j hj => ?_, fun i h8 hi => ?_, ?_⟩
  · rw [hkt i hi]
    exact (hdir i (by omega)).trans (hend.entries i (by omega)).1
  · rw [hkt i hi]
    exact (hend.entries i (by omega)).2
  · rw [hkt i hi]
    exact (htab i hi j).trans (hend.words i j hj (by omega))
  · exact (hdir i (by omega)).trans (hend.rest i (by omega) (by omega))
  · exact if_pos ⟨rfl, rfl⟩

/-- The tables of the kernel after `VMM::init`, and the entries that lead to them. -/
def kernelBase (m : Machine) : Base where
  fixed := fun t => ∃ i < 8, t = kernelTable m i
  image := m.mem
  low := fun i => if i < 8 then some (m.mem m.kernelDirectory i) else none

theorem booted_sound (h : Booted m) :
    Sound (kernelBase m) (fun t => ∃ i < 8, t = kernelTable m i) {m.kernelDirectory} m := by
  have hnone : ∀ i, tableAt m m.kernelDirectory i = none := by
    intro i
    apply if_neg
    rintro ⟨hi, hp, hu⟩
    by_cases h8 : i < 8
    · rw [h.entries i h8, user_entry _ (by decide)] at hu
      exact absurd hu (by decide)
    · rw [h.rest i (by omega) hi] at hp
      exact absurd hp (by decide)
  have hslots : ∀ x, slots noGhost {m.kernelDirectory} m x = none := by
    intro x
    unfold slots
    split_ifs with hx
    · rw [Finset.mem_singleton.mp hx, pteAt, hnone]
      rfl
    · rfl
  have hown : ∀ t, Own (fun t => ∃ i < 8, t = kernelTable m i) {m.kernelDirectory} m t →
      t < m.pmm.maxFrames ∧ m.pmm.memoryBitmap t = true := by
    rintro t (⟨i, hi, rfl⟩ | ht | ⟨d, hd, i, ht⟩)
    · exact ⟨(h.tables i hi).1, (h.tables i hi).2.1⟩
    · rw [Finset.mem_singleton.mp ht]
      exact h.dir.2
    · rw [Finset.mem_singleton.mp hd, hnone] at ht
      exact absurd ht (by simp)
  have hempty : ∀ f, holders (slots noGhost {m.kernelDirectory} m) f = ∅ := fun f =>
    Set.eq_empty_of_forall_notMem fun x hx => by
      have hx' : slots noGhost {m.kernelDirectory} m x = some f := hx
      rw [hslots] at hx'
      exact absurd hx' (by simp)
  refine ⟨⟨fun t ht => (hown t ht).1, fun d hd => ?_, fun d hd i t ht => ?_,
    fun d hd d' hd' i i' t ht => ?_, fun d hd i hi hp hu => ?_, fun t ht => ⟨ht, rfl⟩,
    ⟨fun x f hx => ?_, fun f _ _ => ?_, fun t ht => (hown t ht).2, fun x f hx => ?_, fun f => ?_⟩⟩,
    fun d hd => ?_, fun d hd i w hw => ?_⟩
  · rw [Finset.mem_singleton.mp hd]
    refine ⟨h.dir.1, ?_⟩
    rintro ⟨i, hi, he⟩
    exact (h.tables i hi).2.2 he.symm
  · rw [Finset.mem_singleton.mp hd, hnone] at ht
    exact absurd ht (by simp)
  · rw [Finset.mem_singleton.mp hd, hnone] at ht
    exact absurd ht (by simp)
  · rw [Finset.mem_singleton.mp hd] at hp hu ⊢
    by_cases h8 : i < 8
    · exact ⟨⟨i, h8, rfl⟩, fun hl => absurd hl (by simp [kernelBase, h8])⟩
    · rw [h.rest i (by omega) hi] at hp
      exact absurd hp (by decide)
  · rw [hslots] at hx
    exact absurd hx (by simp)
  · rw [hempty, Set.ncard_empty]
    exact Nat.zero_le _
  · rw [hslots] at hx
    exact absurd hx (by simp)
  · rw [hempty]
    exact Set.finite_empty
  · rw [Finset.mem_singleton.mp hd]
    exact h.recursive
  · rw [Finset.mem_singleton.mp hd]
    unfold kernelBase at hw
    dsimp only at hw
    split_ifs at hw
    exact Option.some.inj hw

theorem kernelBase_proper (h : Booted m) : AddressSpaceLifetimes.Proper (kernelBase m) := by
  intro i w hw
  unfold kernelBase at hw
  dsimp only at hw
  split_ifs at hw with h8
  rw [← Option.some.inj hw, h.entries i h8, present_entry _ (by decide), user_entry _ (by decide)]
  exact ⟨by omega, by decide, by decide⟩

/-- What holds with more to keep holds with nothing to keep. -/
theorem sound_free (h : Sound b R dirs m) : Sound Base.free R dirs m :=
  ⟨⟨h.keeps.inside, h.keeps.dir, h.keeps.table, h.keeps.tables,
    fun d hd i hi hp hu => ⟨(h.keeps.shared d hd i hi hp hu).1, fun _ hf => hf⟩,
    fun _ hf => hf.elim, h.keeps.covered⟩, h.complete.recursive, fun _ _ _ _ hw => absurd hw (by simp [Base.free])⟩

end Init

end Vlsmc.AddressSpaceBoot
