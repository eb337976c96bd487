import Vlsmc.AddressSpaceLifetimes

/-!
# Forks in live address spaces

`cow_clone_directory` gives the child a table of its own for every table of user
pages of the parent. When memory runs out halfway, what was made is taken back.
-/

set_option autoImplicit false

namespace Vlsmc.AddressSpaceClone
open Vlsmc.CountedLoops
open Vlsmc.Words Vlsmc.SharedFrames Vlsmc.PhysicalMemory Vlsmc.FrameHolders Vlsmc.Paging
open Vlsmc.CowClone Vlsmc.AddressSpaces Vlsmc.AddressSpaceSteps Vlsmc.AddressSpaceLifetimes

/-- The pages of directory `d` from page `n` on that hold frame `f`. -/
def pagesFrom (m : Machine) (d n f : ℕ) : Set ℕ := {k | n ≤ k ∧ (pteAt m d k).map frameOf = some f}

/-- The counts leave room for one more reference from every page from `n` on. -/
def Room (p : Pmm) (m : Machine) (d n : ℕ) : Prop :=
  ∀ f < p.maxFrames, p.refcounts f+(pagesFrom m d n f).ncard ≤ 255

variable {b : Base} {R : ℕ → Prop} {dirs : Finset ℕ} {m m' m₀ : Machine} {d t : ℕ}

theorem pagesFrom_finite (m : Machine) (d n f : ℕ) : (pagesFrom m d n f).Finite := by
  refine (Finset.range (1023*1024)).finite_toSet.subset fun k hk => ?_
  obtain ⟨-, hk⟩ := hk
  rw [Option.map_eq_some_iff] at hk
  obtain ⟨w, hw, -⟩ := hk
  obtain ⟨s, hs, -⟩ := pteAt_some hw
  have := (tableAt_some hs).1
  rw [Finset.mem_coe, Finset.mem_range]
  omega

theorem pagesFrom_mono (m : Machine) (d f : ℕ) {n n' : ℕ} (h : n ≤ n') :
    (pagesFrom m d n' f).ncard ≤ (pagesFrom m d n f).ncard :=
  Set.ncard_le_ncard (fun _ hk => ⟨h.trans hk.1, hk.2⟩) (pagesFrom_finite m d n f)

theorem room_mono {p : Pmm} {n n' : ℕ} (h : Room p m d n) (hn : n ≤ n') : Room p m d n' :=
  fun f hf => (Nat.add_le_add_left (pagesFrom_mono m d f hn) _).trans (h f hf)

/-- A page holds `f`, so one reference fewer is to come after it. -/
theorem pagesFrom_succ {n f : ℕ} (h : (pteAt m d n).map frameOf = some f) :
    (pagesFrom m d (n+1) f).ncard+1 ≤ (pagesFrom m d n f).ncard := by
  have hnot : n ∉ pagesFrom m d (n+1) f := fun hk => absurd hk.1 (by omega)
  rw [← Set.ncard_insert_of_notMem hnot (pagesFrom_finite m d (n+1) f)]
  refine Set.ncard_le_ncard ?_ (pagesFrom_finite m d n f)
  intro k hk
  rcases Set.mem_insert_iff.mp hk with rfl | hk
  · exact ⟨le_rfl, h⟩
  · exact ⟨by have := hk.1; omega, hk.2⟩

theorem room_incRef {p : Pmm} {n f : ℕ} (h : Room p m d n) (hn : (pteAt m d n).map frameOf = some f) :
    Room (p.incRef f) m d (n+1) := by
  intro g hg
  rw [incRef_maxFrames] at hg
  by_cases hgf : g = f
  · subst hgf
    have h1 := h g hg
    have h2 := pagesFrom_succ hn
    rw [incRef_refcounts p hg (by omega)]
    omega
  · rw [(incRef_same p hgf).2]
    exact room_mono h (Nat.le_succ n) g hg

theorem room_allocFrame {p : Pmm} {n : ℕ} (h : Room p m d n)
    (hheld : ∀ f k, (pteAt m d k).map frameOf = some f → f < p.maxFrames → p.memoryBitmap f = true) :
    Room p.allocFrame.2 m d n := by
  intro f hf
  rw [allocFrame_maxFrames] at hf
  rcases allocFrame_eq p with heq | ⟨g, -, hbit, heq⟩
  · rw [heq]
    exact h f hf
  · obtain ⟨-, -, hone, hsame⟩ := occupy_spec p g (u32 (p.usedFrames+1))
    rw [heq]
    dsimp only
    by_cases hfg : f = g
    · have hempty : pagesFrom m d n f = ∅ := by
        refine Set.eq_empty_of_forall_notMem fun k hk => ?_
        rw [← hfg, hheld f k hk.2 hf] at hbit
        exact absurd hbit (by simp)
      rw [hempty, Set.ncard_empty, hfg, hone]
      decide
    · rw [(hsame f hfg).2]
      exact h f hf

section Table

/-- The memory after the first `j` entries of table `s` went into the new table `t`. -/
def halfCloned (m : Machine) (nd i s t j : ℕ) : Machine :=
  { m with
    pmm := countShared m.pmm (m.mem s) j
    mem := fun f k => if f = nd ∧ k = i then entry t 7
      else if f = t ∧ k < 1024 then (if k < j then inherited (m.mem s k) else 0)
      else if f = s ∧ k < j then cloned (m.mem s k) else m.mem f k }

theorem halfCloned_pmm (m : Machine) (nd i s t j : ℕ) :
    (halfCloned m nd i s t j).pmm = countShared m.pmm (m.mem s) j := rfl

variable {nd i s : ℕ}

theorem halfCloned_zero (ht : Taken b R noGhost dirs m t) (hfix : ¬b.fixed t) (hd : nd ∈ dirs)
    (hi : i < 1023) (hold : tableAt m nd i = none) :
    Private b R noGhost dirs (halfCloned m nd i s t 0) := by
  refine taken_newTable ht ⟨hd, hi, hold, tableAt_made hi (if_pos ⟨rfl, rfl⟩), rfl,
    fun f k hx => ?_⟩ hfix
  unfold halfCloned
  dsimp only
  rw [if_neg hx]
  by_cases h1 : f = t ∧ k < 1024
  · rw [if_pos h1, if_pos h1, if_neg (by omega)]
  · rw [if_neg h1, if_neg h1, if_neg fun hc => absurd hc.2 (by omega)]

/-- What is known while table `s` of directory `c` is cloned. -/
structure Source (dirs : Finset ℕ) (m : Machine) (c nd i s t : ℕ) : Prop where
  parent : c ∈ dirs
  child : nd ∈ dirs
  apart : c ≠ nd
  table : tableAt m c i = some s
  free : t ∉ dirs
  other : t ≠ s

variable {c j : ℕ}

theorem halfCloned_dir (hs : Source dirs m c nd i s t) (h : Private b R noGhost dirs m)
    {e k : ℕ} (he : e ∈ dirs) : (halfCloned m nd i s t j).mem e k =
      if e = nd ∧ k = i then entry t 7 else m.mem e k := by
  have hes : e ≠ s := fun heq => (h.table c hs.parent i s hs.table).2 (heq ▸ he)
  have het : e ≠ t := fun heq => hs.free (heq ▸ he)
  unfold halfCloned
  dsimp only
  by_cases h1 : e = nd ∧ k = i
  · rw [if_pos h1, if_pos h1]
  · rw [if_neg h1, if_neg h1, if_neg fun hc => het hc.1, if_neg fun hc => hes hc.1]

/-- The two entries of page `j` before they are written. -/
theorem halfCloned_words (hs : Source dirs m c nd i s t) (h : Private b R noGhost dirs m)
    (hi : i < 1023) (hj : j < 1024) :
    tableAt (halfCloned m nd i s t j) c i = some s ∧
      tableAt (halfCloned m nd i s t j) nd i = some t ∧
      (halfCloned m nd i s t j).mem s j = m.mem s j ∧ (halfCloned m nd i s t j).mem t j = 0 := by
  have hsd : s ≠ nd := fun heq => (h.table c hs.parent i s hs.table).2 (heq ▸ hs.child)
  have htd : t ≠ nd := fun heq => hs.free (heq ▸ hs.child)
  refine ⟨?_, tableAt_made hi ?_, ?_, ?_⟩
  · rw [tableAt_congr (m := m)]
    · exact hs.table
    · rw [halfCloned_dir hs h hs.parent, if_neg fun hc => hs.apart hc.1]
  · rw [halfCloned_dir hs h hs.child, if_pos ⟨rfl, rfl⟩]
  · unfold halfCloned
    dsimp only
    rw [if_neg fun hc => hsd hc.1, if_neg fun hc => hs.other hc.1.symm,
      if_neg fun hc => absurd hc.2 (by omega)]
  · unfold halfCloned
    dsimp only
    rw [if_neg fun hc => htd hc.1, if_pos ⟨rfl, hj⟩, if_neg (by omega)]

/-- One more entry. -/
theorem halfCloned_mem_succ (hs : Source dirs m c nd i s t) (h : Private b R noGhost dirs m)
    (hj : j < 1024) (f k : ℕ) : (halfCloned m nd i s t (j+1)).mem f k =
      if f = t ∧ k = j then inherited (m.mem s j)
      else if f = s ∧ k = j then cloned (m.mem s j) else (halfCloned m nd i s t j).mem f k := by
  have hsd : s ≠ nd := fun heq => (h.table c hs.parent i s hs.table).2 (heq ▸ hs.child)
  have htd : t ≠ nd := fun heq => hs.free (heq ▸ hs.child)
  unfold halfCloned
  dsimp only
  by_cases hkj : k = j
  · subst hkj
    by_cases hft : f = t
    · subst hft
      rw [if_neg fun hc => htd hc.1, if_pos ⟨rfl, hj⟩, if_pos (by omega), if_pos ⟨rfl, rfl⟩]
    · by_cases hfs : f = s
      · subst hfs
        rw [if_neg fun hc => hsd hc.1, if_neg fun hc => hft hc.1, if_pos ⟨rfl, by omega⟩,
          if_neg fun hc => hft hc.1, if_pos ⟨rfl, rfl⟩]
      · simp only [hft, hfs, false_and, if_false]
  · have h1 : k < j+1 ↔ k < j := by omega
    simp only [hkj, and_false, if_false, h1]

theorem halfCloned_succ (hs : Source dirs m c nd i s t) (h : Private b R noGhost dirs m)
    (hi : i < 1023) (hj : j < 1024) (hk : Private b R noGhost dirs (halfCloned m nd i s t j))
    (hroom : present (m.mem s j) = true → frameOf (m.mem s j) < m.pmm.maxFrames →
      (countShared m.pmm (m.mem s) j).refcounts (frameOf (m.mem s j)) < 255) :
    Private b R noGhost dirs (halfCloned m nd i s t (j+1)) := by
  obtain ⟨htc, htn, hws, hwt⟩ := halfCloned_words hs h hi hj
  have hmem := halfCloned_mem_succ hs h hj
  have hcount : (halfCloned m nd i s t (j+1)).pmm = if present (m.mem s j) then
      (halfCloned m nd i s t j).pmm.incRef (frameOf (m.mem s j))
      else (halfCloned m nd i s t j).pmm := countShared_succ _ _ _
  have hpm : (halfCloned m nd i s t j).pmm = countShared m.pmm (m.mem s) j := rfl
  have hmaxA : (halfCloned m nd i s t j).pmm.maxFrames = m.pmm.maxFrames :=
    countShared_maxFrames _ _ _
  generalize halfCloned m nd i s t j = A at *
  generalize halfCloned m nd i s t (j+1) = A' at *
  generalize m.mem s j = w at *
  rw [← hpm, ← hmaxA] at hroom
  have hslot := slots_table (G := noGhost) hs.parent htc hj
  have hchild := slots_table (G := noGhost) hs.child htn hj
  rw [hws] at hslot
  rw [hwt] at hchild
  cases hp : present w with
  | false =>
    have hin : inherited w = 0 := by
      rw [inherited, hp]
      rfl
    have hcl : cloned w = w := by
      rw [cloned, hp]
      rfl
    have hsame : ∀ f k, A'.mem f k = A.mem f k := by
      intro f k
      rw [hmem, hin, hcl]
      split_ifs with h1 h2
      · rw [h1.1, h1.2, hwt]
      · rw [h2.1, h2.2, hws]
      · rfl
    refine private_mem hk (by rw [hcount, hp]; rfl) (fun _ _ _ _ => hsame _ _)
      (fun _ _ _ _ _ _ _ => hsame _ _) fun _ _ => funext fun _ => hsame _ _
  | true =>
    rw [hp, if_pos rfl] at hslot
    have hpc : present (cloned w) = true := by rw [present_cloned, hp]
    -- first the entry of the parent, which keeps its frame
    have hB : Private b R noGhost dirs (A.write (s, j) (cloned w)) := by
      refine private_setPte hk hs.parent htc hj rfl (fun f k => rfl) ?_
      rw [hpc, if_pos rfl, frameOf_cloned, setSlot_self hslot]
      exact hk.covered
    have hslotsB : slots noGhost dirs (A.write (s, j) (cloned w)) = slots noGhost dirs A := by
      rw [slots_setPte hk hs.parent htc hj fun f k => rfl, hpc, if_pos rfl, frameOf_cloned,
        setSlot_self hslot]
    have htB : tableAt (A.write (s, j) (cloned w)) nd i = some t := by
      rw [← htn]
      refine tableAt_congr (if_neg fun hc => ?_)
      have he : nd = s := hc.1
      exact (hk.table c hs.parent i s htc).2 (he ▸ hs.child)
    -- then the entry of the child, with one more reference
    refine private_setPte hB hs.child htB hj ?_ (w := inherited w) (fun f k => ?_) ?_
    · rw [hcount, hp, if_pos rfl, incRef_maxFrames]
      rfl
    · rw [hmem]
      rfl
    · rw [present_inherited, hp, if_pos rfl, inherited, hp, if_pos rfl, frameOf_cloned, hcount, hp,
        if_pos rfl]
      refine covered_share hB.covered (y := (c, 1024*i+j)) ?_ ?_ (hroom hp)
      · rw [hslotsB, hslot]
      · rw [hslotsB, hchild]
        rfl

/-- The whole table, as long as the counts have room for its pages. -/
theorem halfCloned_private (hs : Source dirs m c nd i s t) (h : Private b R noGhost dirs m)
    (ht : Taken b R noGhost dirs m t) (hfix : ¬b.fixed t) (hi : i < 1023)
    (hold : tableAt m nd i = none)
    (hpages : ∀ j < 1024, (pteAt m₀ c (1024*i+j)).map frameOf =
      if present (m.mem s j) then some (frameOf (m.mem s j)) else none)
    (hroom : Room m.pmm m₀ c (1024*i)) : ∀ j ≤ 1024,
      Private b R noGhost dirs (halfCloned m nd i s t j) ∧
        Room (countShared m.pmm (m.mem s) j) m₀ c (1024*i+j) := by
  intro j
  induction j with
  | zero => exact fun _ => ⟨halfCloned_zero ht hfix hs.child hi hold, hroom⟩
  | succ j ih =>
    intro hj
    obtain ⟨h1, h2⟩ := ih (by omega)
    have hpage := hpages j (by omega)
    constructor
    · refine halfCloned_succ hs h hi (by omega) h1 fun hp hlt => ?_
      rw [hp, if_pos rfl] at hpage
      have h3 := h2 (frameOf (m.mem s j)) (by rwa [countShared_maxFrames])
      have h4 := pagesFrom_succ hpage
      omega
    · rw [countShared_succ]
      split_ifs with hp
      · rw [if_pos hp] at hpage
        exact room_incRef h2 hpage
      · exact room_mono h2 (Nat.le_succ _)

end Table

/-- The loop of `cow_clone_directory` has passed the entries below `i` of the loaded
directory. `m₀` is the state before the loop, with an empty directory `nd`. -/
structure Cloned (b : Base) (R : ℕ → Prop) (dirs : Finset ℕ) (m₀ : Machine) (nd i : ℕ)
    (m : Machine) : Prop where
  keeps : Private b R noGhost (insert nd dirs) m
  dir : ∀ d ∈ dirs, m.mem d = m₀.mem d
  space : SameSpace m₀ m
  low : ∀ k < i, ∀ w, b.low k = some w → m.mem nd k = w
  pending : ∀ k < 1024, i ≤ k ∨ k = 1023 → m.mem nd k = 0
  twin : ∀ k t, tableAt m nd k = some t → ∃ s, tableAt m₀ m₀.cr3 k = some s ∧
    ∀ j < 1024, present (m.mem t j) = true → present (m.mem s j) = true ∧
      frameOf (m.mem s j) = frameOf (m.mem t j)
  pages : ∀ n, (pteAt m m₀.cr3 n).map frameOf = (pteAt m₀ m₀.cr3 n).map frameOf
  room : Room m.pmm m₀ m₀.cr3 (1024*i)

/-- What the loop needs. -/
structure Parent (b : Base) (dirs : Finset ℕ) (m₀ : Machine) (nd : ℕ) : Prop where
  proper : Proper b
  complete : Complete b dirs m₀
  loaded : m₀.cr3 ∈ dirs
  out : nd ∉ dirs

section Loop

variable {nd i : ℕ} (hq : Parent b dirs m₀ nd) (h : Cloned b R dirs m₀ nd i m)
include hq h

theorem cloned_recursive : frameOf (m.mem m.cr3 1023) = m.cr3 := by
  rw [h.space.1, h.dir _ hq.loaded, hq.complete.recursive _ hq.loaded, frameOf_entry _ (by decide)]

theorem cloned_pde (hi : i < 1024) : m.read (m.pdePtr i) = m₀.mem m₀.cr3 i := by
  rw [pdePtr_eq (cloned_recursive hq h) hi, Machine.read, h.space.1, h.dir _ hq.loaded]

/-- An entry that is absent, or the recursive one. -/
theorem cloned_skip (hi : i < 1024) (habs : i ≠ 1023 → present (m₀.mem m₀.cr3 i) = false) :
    Cloned b R dirs m₀ nd (i+1) m := by
  refine ⟨h.keeps, h.dir, h.space, fun k hk w hw => ?_, fun k hk hki => h.pending k hk (by omega),
    h.twin, h.pages, room_mono h.room (by omega)⟩
  by_cases hki : k = i
  · subst hki
    obtain ⟨hlt, hp, -⟩ := hq.proper k w hw
    have := habs (by omega)
    rw [hq.complete.low _ hq.loaded k w hw, hp] at this
    exact absurd this (by simp)
  · exact h.low k (by omega) w hw

/-- An entry of the kernel is copied. -/
theorem cloned_copy (hi : i < 1023) (hp : present (m₀.mem m₀.cr3 i) = true)
    (hu : user (m₀.mem m₀.cr3 i) = false) :
    Cloned b R dirs m₀ nd (i+1) (m.write (nd, i) (m₀.mem m₀.cr3 i)) := by
  have hin : m₀.cr3 ∈ insert nd dirs := Finset.mem_insert_of_mem hq.loaded
  have hnd : nd ∈ insert nd dirs := Finset.mem_insert_self nd dirs
  have hold : tableAt m nd i = none := by
    apply if_neg
    rintro ⟨-, hp', -⟩
    rw [h.pending i (by omega) (Or.inl le_rfl)] at hp'
    exact absurd hp' (by decide)
  generalize hm' : m.write (nd, i) (m₀.mem m₀.cr3 i) = m'
  have hmem : ∀ f k, m'.mem f k = if f = nd ∧ k = i then m₀.mem m₀.cr3 i else m.mem f k := by
    intro f k
    rw [← hm']
    rfl
  have hother : ∀ f, f ≠ nd → m'.mem f = m.mem f := by
    intro f hf
    funext k
    rw [hmem, if_neg fun hc => hf hc.1]
  have hword : m'.mem nd i = m₀.mem m₀.cr3 i := by rw [hmem, if_pos ⟨rfl, rfl⟩]
  have hnew : tableAt m' nd i = none := by
    apply if_neg
    rintro ⟨-, -, hu'⟩
    rw [hword, hu] at hu'
    exact absurd hu' (by simp)
  have htab : ∀ e ∈ insert nd dirs, ∀ k s, tableAt m e k = some s → s ≠ nd := fun e he k s hs heq =>
    (h.keeps.table e he k s hs).2 (heq ▸ hnd)
  have hpmm : m'.pmm = m.pmm := by
    rw [← hm']
    rfl
  have htabs : ∀ k, tableAt m' nd k = tableAt m nd k := by
    intro k
    by_cases hki : k = i
    · rw [hki, hold, hnew]
    · exact tableAt_congr (by rw [hmem, if_neg fun hc => hki hc.2])
  refine ⟨?_, ?_, ?_, ?_, ?_, ?_, ?_, ?_⟩
  · refine private_setPde h.keeps hold hnew hpmm (fun e _ k _ hx => ?_) (fun e he k s hs n _ => ?_)
      (fun s hs => ?_) fun _ _ _ => ?_
    · rw [hmem, if_neg (by tauto)]
    · rw [hother s (htab e he k s hs)]
    · exact hother s fun heq => (h.keeps.dir nd hnd).2 (heq ▸ (h.keeps.kernel s hs).1)
    · rw [hword]
      have hpar := h.keeps.shared _ hin i hi
      rw [h.dir _ hq.loaded] at hpar
      exact hpar hp hu
  · intro e he
    rw [hother e fun heq => hq.out (heq ▸ he), h.dir e he]
  · rw [← hm']
    exact h.space
  · intro k hk w hw
    by_cases hki : k = i
    · rw [hki] at hw ⊢
      rw [hword]
      exact hq.complete.low _ hq.loaded i w hw
    · rw [hmem, if_neg fun hc => hki hc.2]
      exact h.low k (by omega) w hw
  · intro k hk hki
    rw [hmem, if_neg fun hc => by omega]
    exact h.pending k hk (by omega)
  · intro k t ht
    rw [htabs] at ht
    obtain ⟨s, hs, hall⟩ := h.twin k t ht
    refine ⟨s, hs, ?_⟩
    have hs' : tableAt m m₀.cr3 k = some s := by
      rw [← hs]
      exact tableAt_congr (by rw [h.dir _ hq.loaded])
    rw [hother t (htab nd hnd k t ht), hother s (htab _ hin k s hs')]
    exact hall
  · intro n
    rw [← h.pages n]
    congr 1
    refine pteAt_kept (hother _ fun heq => hq.out (heq ▸ hq.loaded)) fun s hs => ?_
    exact hother s (htab _ hin _ s hs)
  · rw [hpmm]
    exact room_mono h.room (by omega)

/-- What the code does to the memory for an entry of user pages. -/
structure TableCloned (m m3 : Machine) (nd i s t : ℕ) : Prop where
  pmm : m3.pmm = countShared m.pmm.allocFrame.2 (m.mem s) 1024
  space : SameSpace m m3
  mem : ∀ f k, m3.mem f k = if f = nd ∧ k = i then entry t 7
    else if f = t ∧ k < 1024 then inherited (m.mem s k)
    else if f = s ∧ k < 1024 then cloned (m.mem s k) else m.mem f k

theorem cloned_source (hi : i < 1023) (hp : present (m₀.mem m₀.cr3 i) = true)
    (hu : user (m₀.mem m₀.cr3 i) = true) (h0 : m.allocFrame.1 ≠ 0) :
    Source (insert nd dirs) m.allocFrame.2 m₀.cr3 nd i (frameOf (m₀.mem m₀.cr3 i)) m.allocFrame.1 := by
  have ht := taken_fresh h.keeps h0
  have hin : m₀.cr3 ∈ insert nd dirs := Finset.mem_insert_of_mem hq.loaded
  have htab : tableAt m.allocFrame.2 m₀.cr3 i = some (frameOf (m₀.mem m₀.cr3 i)) := by
    rw [← tableAt_of hi hp hu]
    exact tableAt_congr (by rw [Machine.allocFrame_mem, h.dir _ hq.loaded])
  exact ⟨hin, Finset.mem_insert_self nd dirs, fun he => hq.out (he ▸ hq.loaded), htab,
    fun hd => taken_not_dir ht hd rfl, (taken_not_table ht hin htab).symm⟩

theorem tableCloned (hi : i < 1023) (hp : present (m₀.mem m₀.cr3 i) = true)
    (hu : user (m₀.mem m₀.cr3 i) = true) (h0 : m.allocFrame.1 ≠ 0) :
    TableCloned m ((m.allocFrame.2.cloneTable i m.allocFrame.1).write (nd, i)
      (entry m.allocFrame.1 7)) nd i (frameOf (m₀.mem m₀.cr3 i)) m.allocFrame.1 := by
  have hs := cloned_source hq h hi hp hu h0
  have hrec := cloned_recursive hq h
  have hcr : m.cr3 = m₀.cr3 := h.space.1
  have hdir := h.dir _ hq.loaded
  have hsd : frameOf (m₀.mem m₀.cr3 i) ≠ m.cr3 := fun he =>
    ((taken_fresh h.keeps h0).keeps.table _ hs.parent i _ hs.table).2 (he ▸ hcr ▸ hs.parent)
  obtain ⟨hc, hk, hpm, hm⟩ := cloneTable_spec (m := m.allocFrame.2) (t := m.allocFrame.1) (i := i)
    (s := frameOf (m₀.mem m₀.cr3 i)) hrec
    (show frameOf (m.mem m.cr3 i) = _ by rw [hcr, hdir])
    (fun he => hs.free (by rw [he]; exact hcr ▸ hs.parent)) hsd hs.other
  rw [Machine.allocFrame_pmm, Machine.allocFrame_mem] at hpm
  rw [Machine.allocFrame_mem] at hm
  refine ⟨?_, ⟨?_, ?_⟩, fun f k => ?_⟩
  · rw [write_pmm, hpm]
  · rw [write_cr3, hc, Machine.allocFrame_cr3]
  · rw [write_kernelDirectory, hk, Machine.allocFrame_kernelDirectory]
  · rw [write_mem, hm]

theorem tableCloned_private (hi : i < 1023) (hp : present (m₀.mem m₀.cr3 i) = true)
    (hu : user (m₀.mem m₀.cr3 i) = true) (h0 : m.allocFrame.1 ≠ 0) {m3 : Machine}
    (hm3 : TableCloned m m3 nd i (frameOf (m₀.mem m₀.cr3 i)) m.allocFrame.1) :
    Private b R noGhost (insert nd dirs) m3 ∧ Room m3.pmm m₀ m₀.cr3 (1024*(i+1)) := by
  have hs := cloned_source hq h hi hp hu h0
  have ht := taken_fresh h.keeps h0
  have hfix := taken_not_fixed ht fun s hs => (h.keeps.kernel s hs).1
  have hslot : ∀ n, slots noGhost (insert nd dirs) m (m₀.cr3, n) =
      (pteAt m₀ m₀.cr3 n).map frameOf := fun n => by
    rw [slots_dir hs.parent, h.pages n]
  have hpriv : Private b R noGhost (insert nd dirs) m.allocFrame.2 :=
    private_rebuild h.keeps (allocFrame_maxFrames m.pmm) (fun _ _ _ _ => rfl) (fun _ _ => rfl)
      (covered_allocFrame h.keeps.covered)
  have hold : tableAt m.allocFrame.2 nd i = none := by
    apply if_neg
    rintro ⟨-, hp', -⟩
    rw [Machine.allocFrame_mem, h.pending i (by omega) (Or.inl le_rfl)] at hp'
    exact absurd hp' (by decide)
  have hroom : Room m.allocFrame.2.pmm m₀ m₀.cr3 (1024*i) := by
    refine room_allocFrame h.room fun f k hk hf => ?_
    rw [← hslot k] at hk
    exact h.keeps.covered.held _ f hk hf
  have hhalf := halfCloned_private hs hpriv ht hfix hi hold (fun j hj => ?_) hroom 1024 le_rfl
  · obtain ⟨h1, h2⟩ := hhalf
    have hsame : ∀ f k, m3.mem f k = (halfCloned m.allocFrame.2 nd i (frameOf (m₀.mem m₀.cr3 i))
        m.allocFrame.1 1024).mem f k := by
      intro f k
      rw [hm3.mem]
      unfold halfCloned
      dsimp only
      rw [Machine.allocFrame_mem]
      by_cases hc : f = m.allocFrame.1 ∧ k < 1024
      · rw [if_pos hc, if_pos hc, if_pos hc.2]
      · rw [if_neg hc, if_neg hc]
    have hpmm : m3.pmm = (halfCloned m.allocFrame.2 nd i (frameOf (m₀.mem m₀.cr3 i))
        m.allocFrame.1 1024).pmm := by
      rw [halfCloned_pmm, hm3.pmm, Machine.allocFrame_pmm, Machine.allocFrame_mem]
    refine ⟨private_mem h1 hpmm (fun _ _ _ _ => hsame _ _) (fun _ _ _ _ _ _ _ => hsame _ _)
      fun _ _ => funext fun _ => hsame _ _, ?_⟩
    rw [Machine.allocFrame_pmm, Machine.allocFrame_mem, ← hm3.pmm] at h2
    rw [Nat.mul_succ]
    exact h2
  · rw [← hslot, ← slots_table (G := noGhost) hs.parent hs.table hj]
    rfl

/-- An entry of user pages gets a table of its own. -/
theorem cloned_table (hi : i < 1023) (hp : present (m₀.mem m₀.cr3 i) = true)
    (hu : user (m₀.mem m₀.cr3 i) = true) (h0 : m.allocFrame.1 ≠ 0) {m3 : Machine}
    (hm3 : TableCloned m m3 nd i (frameOf (m₀.mem m₀.cr3 i)) m.allocFrame.1) :
    Cloned b R dirs m₀ nd (i+1) m3 := by
  obtain ⟨hpriv, hroom⟩ := tableCloned_private hq h hi hp hu h0 hm3
  have hs := cloned_source hq h hi hp hu h0
  have ht := taken_fresh h.keeps h0
  have hmem := hm3.mem
  have hsp := hm3.space
  have htab₀ := tableAt_of hi hp hu
  generalize frameOf (m₀.mem m₀.cr3 i) = s at *
  have htable : tableAt m m₀.cr3 i = some s := hs.table
  have hfree : ∀ e ∈ insert nd dirs, ∀ k s', tableAt m e k = some s' → s' ≠ m.allocFrame.1 :=
    fun e he k s' hs' => taken_not_table ht he hs'
  generalize m.allocFrame.1 = t at *
  have hin := hs.parent
  have hnd := hs.child
  -- the other frames are as before
  have hother : ∀ f, f ≠ nd → f ≠ t → f ≠ s → m3.mem f = m.mem f := by
    intro f h1 h2 h3
    funext k
    rw [hmem, if_neg fun hc => h1 hc.1, if_neg fun hc => h2 hc.1, if_neg fun hc => h3 hc.1]
  have hsd : ∀ e ∈ insert nd dirs, e ≠ s := fun e he heq =>
    (h.keeps.table _ hin i s htable).2 (heq ▸ he)
  have htd : ∀ e ∈ insert nd dirs, e ≠ t := fun e he heq => hs.free (heq ▸ he)
  have hnew : ∀ k, k ≠ i → m3.mem nd k = m.mem nd k := by
    intro k hk
    rw [hmem, if_neg fun hc => hk hc.2, if_neg fun hc => htd nd hnd hc.1,
      if_neg fun hc => hsd nd hnd hc.1]
  have hdir : ∀ e ∈ dirs, m3.mem e = m.mem e := by
    intro e he
    have he' : e ∈ insert nd dirs := Finset.mem_insert_of_mem he
    exact hother e (fun heq => hq.out (heq ▸ he)) (htd e he') (hsd e he')
  have hsrc : ∀ j < 1024, m3.mem s j = cloned (m.mem s j) := by
    intro j hj
    rw [hmem, if_neg fun hc => hsd nd hnd hc.1.symm, if_neg fun hc => hs.other hc.1.symm,
      if_pos ⟨rfl, hj⟩]
  have hdst : ∀ j < 1024, m3.mem t j = inherited (m.mem s j) := by
    intro j hj
    rw [hmem, if_neg fun hc => htd nd hnd hc.1.symm, if_pos ⟨rfl, hj⟩]
  refine ⟨hpriv, fun e he => (hdir e he).trans (h.dir e he),
    ⟨hsp.1.trans h.space.1, hsp.2.trans h.space.2⟩, ?_, ?_, ?_, ?_, hroom⟩
  · intro k hk w hw
    have hki : k ≠ i := by
      rintro rfl
      obtain ⟨-, -, huw⟩ := hq.proper k w hw
      rw [← hq.complete.low _ hq.loaded k w hw, hu] at huw
      exact absurd huw (by simp)
    rw [hnew k hki]
    exact h.low k (by omega) w hw
  · intro k hk hki
    rw [hnew k (by omega)]
    exact h.pending k hk (by omega)
  · intro k t' ht'
    by_cases hki : k = i
    · subst hki
      have htt : t' = t := by
        have hmade : tableAt m3 nd k = some t := tableAt_made hi (by rw [hmem, if_pos ⟨rfl, rfl⟩])
        rw [hmade] at ht'
        exact (Option.some.inj ht').symm
      subst htt
      refine ⟨s, htab₀, fun j hj hpj => ?_⟩
      rw [hdst j hj] at hpj ⊢
      rw [present_inherited] at hpj
      rw [hsrc j hj, present_cloned, inherited, hpj, if_pos rfl]
      exact ⟨rfl, rfl⟩
    · rw [tableAt_congr (hnew k hki)] at ht'
      obtain ⟨s', hs', hall⟩ := h.twin k t' ht'
      have hs'' : tableAt m m₀.cr3 k = some s' := by
        rw [← hs']
        exact tableAt_congr (by rw [h.dir _ hq.loaded])
      have h1 : s' ≠ s := fun heq => hki (h.keeps.tables _ hin _ hin k i s (heq ▸ hs'') htable).2
      have h2 : t' ≠ s := fun heq =>
        hs.apart (h.keeps.tables _ hnd _ hin k i s (heq ▸ ht') htable).1.symm
      refine ⟨s', hs', ?_⟩
      rw [hother t' (fun heq => (h.keeps.table _ hnd k t' ht').2 (heq ▸ hnd))
        (hfree _ hnd k t' ht') h2, hother s' (fun heq => (h.keeps.table _ hin k s' hs'').2 (heq ▸ hnd))
        (hfree _ hin k s' hs'') h1]
      exact hall
  · intro n
    rw [← h.pages n]
    by_cases hni : n/1024 = i
    · have ht1 : tableAt m m₀.cr3 (n/1024) = some s := by rw [hni, htable]
      have ht3 : tableAt m3 m₀.cr3 (n/1024) = some s := by
        rw [← ht1]
        exact tableAt_congr (by rw [hdir _ hq.loaded])
      rw [pteAt_table ht1, pteAt_table ht3, hsrc _ (Nat.mod_lt _ (by decide)), present_cloned]
      split_ifs
      · rw [Option.map_some, Option.map_some, frameOf_cloned]
      · rfl
    · congr 1
      refine pteAt_kept (hdir _ hq.loaded) fun s' hs' => ?_
      have h1 : s' ≠ s := fun heq => hni (h.keeps.tables _ hin _ hin _ i s (heq ▸ hs') htable).2
      exact hother s' (fun heq => (h.keeps.table _ hin _ s' hs').2 (heq ▸ hnd))
        (hfree _ hin _ s' hs') h1

end Loop

section Undo

/-- The entry of a live page changes and its frame does not. -/
theorem tearing_setPte {n j i k s w : ℕ} (h : Tearing b R dirs m₀ d n j m) {c : ℕ} (hc : c ∈ dirs)
    (hs : tableAt m c i = some s) (hk : k < 1024) (hp : present (m.mem s k) = true)
    (hw : present w = true) (hf : frameOf w = frameOf (m.mem s k)) :
    Tearing b R dirs m₀ d n j (m.write (s, k) w) := by
  have hslot := slots_table (G := fun x => if x.1 = d ∧ 1024*n+j ≤ x.2 then
    (pteAt m₀ d x.2).map frameOf else none) hc hs hk
  rw [hp, if_pos rfl] at hslot
  have hdir : ∀ e ∈ dirs, (m.write (s, k) w).mem e = m.mem e := by
    intro e he
    funext k'
    refine if_neg fun hcc => ?_
    have heq : e = s := hcc.1
    exact (h.keeps.table c hc i s hs).2 (heq ▸ he)
  refine ⟨private_setPte h.keeps hc hs hk rfl (fun f k => rfl) ?_, h.out, h.unused, h.tables,
    h.distinct, fun e he i hi => ?_, h.fixed⟩
  · rw [hw, if_pos rfl, hf, setSlot_self hslot]
    exact h.keeps.covered
  · rw [hdir e he]
    exact h.shared e he i hi

/-- What is known when the new directory is given up. -/
structure GivenUp (dirs : Finset ℕ) (m₁ : Machine) (nd : ℕ) : Prop where
  loaded : m₁.cr3 ∈ dirs
  recursive : m₁.mem m₁.cr3 1023 = entry m₁.cr3 3
  apart : ∀ k s, tableAt m₁ m₁.cr3 k = some s → s ≠ nd ∧ ∀ i, tableAt m₁ nd i ≠ some s
  out : ∀ k s, tableAt m₁ m₁.cr3 k = some s → s ∉ dirs
  twin : ∀ k t, tableAt m₁ nd k = some t → ∃ s, tableAt m₁ m₁.cr3 k = some s ∧
    ∀ j < 1024, present (m₁.mem t j) = true → present (m₁.mem s j) = true ∧
      frameOf (m₁.mem s j) = frameOf (m₁.mem t j)

/-- The loops that take back what was cloned, at entry `j` of table `n`. -/
structure Undoing (b : Base) (R : ℕ → Prop) (dirs : Finset ℕ) (m₁ : Machine) (nd n j : ℕ)
    (r : Machine) : Prop where
  tearing : Tearing b R dirs m₁ nd n j r
  kept : ∀ f, (f = nd ∨ ∃ i, tableAt m₁ nd i = some f) → r.mem f = m₁.mem f
  dir : ∀ e ∈ dirs, r.mem e = m₁.mem e
  space : SameSpace m₁ r
  parent : ∀ k s, tableAt m₁ m₁.cr3 k = some s → ∀ j < 1024, present (m₁.mem s j) = true →
    present (r.mem s j) = true ∧ frameOf (r.mem s j) = frameOf (m₁.mem s j)

variable {m₁ r : Machine} {nd n j : ℕ}

/-- One entry of a table that is taken back. -/
theorem undoing_page (hg : GivenUp dirs m₁ nd) (h : Undoing b R dirs m₁ nd n j r)
    (ht : tableAt m₁ nd n = some t) (hj : j < 1024) :
    Undoing b R dirs m₁ nd n (j+1)
      (if present (r.mem t j) then
        let phys := frameOf (r.mem t j)
        let m := r.decRef phys
        if cow (m.mem t j) then m.write (m.ptePtr (Machine.virtOf n j)) (entry phys 7) else m
      else r) := by
  have hword : r.mem t j = m₁.mem t j := by rw [h.kept t (Or.inr ⟨n, ht⟩)]
  rw [hword]
  cases hp : present (m₁.mem t j) with
  | false =>
    rw [if_neg (by simp)]
    exact ⟨tearing_skip h.tearing ht hj hp, h.kept, h.dir, h.space, h.parent⟩
  | true =>
    rw [if_pos rfl]
    dsimp only
    have htear := tearing_drop h.tearing ht hj hp
    have hmem : (r.decRef (frameOf (m₁.mem t j))).mem = r.mem := rfl
    have hsp : SameSpace m₁ (r.decRef (frameOf (m₁.mem t j))) := h.space
    have hdrop : Undoing b R dirs m₁ nd n (j+1) (r.decRef (frameOf (m₁.mem t j))) :=
      ⟨htear, h.kept, h.dir, h.space, h.parent⟩
    generalize hf : frameOf (m₁.mem t j) = f at *
    generalize r.decRef f = r1 at *
    split_ifs
    · obtain ⟨s, hs, hall⟩ := hg.twin n t ht
      obtain ⟨hps, hfs⟩ := hall j hj hp
      have hdir := hdrop.dir _ hg.loaded
      have hrec : frameOf (r1.mem r1.cr3 1023) = r1.cr3 := by
        rw [hsp.1, hdir, hg.recursive, frameOf_entry _ (by decide)]
      have hptr : r1.ptePtr (Machine.virtOf n j) = (s, j) := by
        rw [ptePtr_virtOf hrec n hj, hsp.1, hdir, (tableAt_some hs).2.2.2]
      have hs1 : tableAt r1 m₁.cr3 n = some s := by
        rw [← hs]
        exact tableAt_congr (by rw [hdir])
      obtain ⟨hp1, hf1⟩ := hdrop.parent n s hs j hj hps
      have hother : ∀ g, g ≠ s → (r1.write (s, j) (entry f 7)).mem g = r1.mem g := by
        intro g hg
        funext k
        exact if_neg fun hc => hg hc.1
      rw [hptr]
      refine ⟨tearing_setPte htear hg.loaded hs1 hj hp1 ?_ ?_, fun g hgn => ?_, fun e he => ?_, hsp,
        fun k s' hs' j' hj' hp' => ?_⟩
      · rw [present_entry _ (by decide)]
        decide
      · rw [frameOf_entry _ (by decide), hf1, hfs, hf]
      · rw [hother g ?_]
        · exact hdrop.kept g hgn
        · rintro rfl
          rcases hgn with heq | ⟨i, hi⟩
          · exact (hg.apart n g hs).1 heq
          · exact (hg.apart n g hs).2 i hi
      · rw [hother e fun heq => hg.out n s hs (heq ▸ he)]
        exact hdrop.dir e he
      · by_cases hx : s' = s ∧ j' = j
        · have hnew : (r1.write (s, j) (entry f 7)).mem s' j' = entry f 7 := if_pos hx
          rw [hnew, present_entry _ (by decide), frameOf_entry _ (by decide), hx.1, hx.2, hfs, hf]
          exact ⟨by decide, rfl⟩
        · have hold : (r1.write (s, j) (entry f 7)).mem s' j' = r1.mem s' j' := if_neg hx
          rw [hold]
          exact hdrop.parent k s' hs' j' hj' hp'
    · exact hdrop

/-- The inner loop. -/
theorem undoing_pages (hg : GivenUp dirs m₁ nd) (h : Undoing b R dirs m₁ nd n 0 r)
    (ht : tableAt m₁ nd n = some t) : ∀ k ≤ 1024, ∀ r', (List.range k).foldl (fun m j =>
      if present (m.mem t j) then
        let phys := frameOf (m.mem t j)
        let m := m.decRef phys
        if cow (m.mem t j) then m.write (m.ptePtr (Machine.virtOf n j)) (entry phys 7) else m
      else m) r = r' → Undoing b R dirs m₁ nd n k r' := by
  rintro k hk r' rfl
  exact foldl_range h k fun j hj r hr => undoing_page hg hr ht (by omega)

theorem undoing_table (hg : GivenUp dirs m₁ nd) (h : Undoing b R dirs m₁ nd n 0 r) (hn : n < 1023) :
    Undoing b R dirs m₁ nd (n+1) 0 (r.undoTable nd n) := by
  have hnone : (present (m₁.mem nd n) = true → user (m₁.mem nd n) = true → False) →
      Undoing b R dirs m₁ nd (n+1) 0 r := fun hno =>
    ⟨tearing_none h.tearing (if_neg fun hc => hno hc.2.1 hc.2.2), h.kept, h.dir, h.space, h.parent⟩
  have hnd := h.kept nd (Or.inl rfl)
  unfold Machine.undoTable
  rw [if_neg (by omega), hnd]
  cases hp : present (m₁.mem nd n) with
  | false => exact hnone fun hc => by simp [hp] at hc
  | true =>
    cases hu : user (m₁.mem nd n) with
    | false => exact hnone fun _ hc => by simp [hu] at hc
    | true =>
      have ht := tableAt_of (m := m₁) hn hp hu
      obtain ⟨r', hr'⟩ : ∃ r', (List.range 1024).foldl (fun m j =>
        if present (m.mem (frameOf (m₁.mem nd n)) j) then
          let phys := frameOf (m.mem (frameOf (m₁.mem nd n)) j)
          let m := m.decRef phys
          if cow (m.mem (frameOf (m₁.mem nd n)) j) then
            m.write (m.ptePtr (Machine.virtOf n j)) (entry phys 7) else m
        else m) r = r' := ⟨_, rfl⟩
      have hall := undoing_pages hg h ht 1024 le_rfl r' hr'
      dsimp only at hr' ⊢
      rw [if_neg (by simp), if_neg (by simp), hr']
      exact ⟨tearing_free hall.tearing ht, hall.kept, hall.dir, hall.space, hall.parent⟩

theorem undoing_tables (hg : GivenUp dirs m₁ nd) (h : Undoing b R dirs m₁ nd 0 0 r) :
    ∀ k ≤ 1023, ∀ r', (List.range k).foldl (fun m k => m.undoTable nd k) r = r' →
      Undoing b R dirs m₁ nd k 0 r' := by
  rintro k hk r' rfl
  exact foldl_range (P := fun k r => Undoing b R dirs m₁ nd k 0 r) h k fun j hj r hr =>
    undoing_table hg hr (by omega)

/-- No table was made from `n` on. -/
theorem tearing_rest (h : Tearing b R dirs m₁ nd n 0 r) (hn : ∀ k, n ≤ k → tableAt m₁ nd k = none) :
    ∀ c, Tearing b R dirs m₁ nd (n+c) 0 r := by
  intro c
  induction c with
  | zero => exact h
  | succ c ih => exact tearing_none ih (hn (n+c) (by omega))

end Undo

section Fork

variable {nd i : ℕ}

/-- Memory ran out at entry `i`: everything is as before the fork. -/
theorem cloned_undo (hq : Parent b dirs m₀ nd) (h : Cloned b R dirs m₀ nd i m) (hi : i ≤ 1023) :
    Sound b R dirs (((List.range i).foldl (fun m k => m.undoTable nd k) m.allocFrame.2).freeFrame nd) ∧
      SameSpace m₀ (((List.range i).foldl (fun m k => m.undoTable nd k) m.allocFrame.2).freeFrame nd) := by
  have hin : m₀.cr3 ∈ insert nd dirs := Finset.mem_insert_of_mem hq.loaded
  have hnd : nd ∈ insert nd dirs := Finset.mem_insert_self nd dirs
  have hpriv : Private b R noGhost (insert nd dirs) m.allocFrame.2 :=
    private_rebuild h.keeps (allocFrame_maxFrames m.pmm) (fun _ _ _ _ => rfl) (fun _ _ => rfl)
      (covered_allocFrame h.keeps.covered)
  have hmem := Machine.allocFrame_mem m
  have hcr : m.allocFrame.2.cr3 = m₀.cr3 := h.space.1
  have hkd : m.allocFrame.2.kernelDirectory = m₀.kernelDirectory := h.space.2
  generalize m.allocFrame.2 = m₁ at *
  have htab : ∀ k, tableAt m₁ m₁.cr3 k = tableAt m₀ m₀.cr3 k := fun k => by
    rw [hcr]
    exact tableAt_congr (by rw [hmem, h.dir _ hq.loaded])
  have hin₁ : m₁.cr3 ∈ insert nd dirs := hcr ▸ hin
  have hg : GivenUp dirs m₁ nd := by
    refine ⟨hcr ▸ hq.loaded, ?_, fun k s hs => ?_, fun k s hs hd => ?_, fun k t ht => ?_⟩
    · rw [hcr, hmem, h.dir _ hq.loaded]
      exact hq.complete.recursive _ hq.loaded
    · refine ⟨fun he => (hpriv.table _ hin₁ k s hs).2 (he ▸ hnd), fun i hi => ?_⟩
      have := (hpriv.tables _ hin₁ _ hnd k i s hs hi).1
      rw [hcr] at this
      exact hq.out (this ▸ hq.loaded)
    · exact (hpriv.table _ hin₁ k s hs).2 (Finset.mem_insert_of_mem hd)
    · obtain ⟨s, hs, hall⟩ := h.twin k t ((tableAt_congr (by rw [hmem])).symm.trans ht)
      refine ⟨s, (htab k).trans hs, ?_⟩
      rw [hmem]
      exact hall
  have hstart : Undoing b R dirs m₁ nd 0 0 m₁ := by
    have htear := tearing_start hpriv hnd
    rw [Finset.erase_insert hq.out] at htear
    exact ⟨htear, fun _ _ => rfl, fun _ _ => rfl, ⟨rfl, rfl⟩, fun _ _ _ _ _ hp => ⟨hp, rfl⟩⟩
  obtain ⟨r, hr⟩ : ∃ r, (List.range i).foldl (fun m k => m.undoTable nd k) m₁ = r := ⟨_, rfl⟩
  have hall := undoing_tables hg hstart i hi r hr
  have hrest := tearing_rest hall.tearing (fun k hk => ?_) (1023-i)
  · rw [hr]
    rw [show i+(1023-i) = 1023 by omega] at hrest
    have hdir : ∀ e ∈ dirs, (r.freeFrame nd).mem e = m₀.mem e := fun e he => by
      rw [← h.dir e he, ← hmem]
      exact hall.dir e he
    exact ⟨⟨tearing_done hrest, complete_dirs hq.complete hdir⟩, hall.space.1.trans hcr,
      hall.space.2.trans hkd⟩
  · apply if_neg
    rintro ⟨hlt, hp, -⟩
    rw [hmem, h.pending k (by omega) (Or.inl hk)] at hp
    exact absurd hp (by decide)

/-- The recursive entry finishes the directory. -/
theorem cloned_finish (hq : Parent b dirs m₀ nd) (h : Cloned b R dirs m₀ nd 1024 m) :
    Sound b R (insert nd dirs) (m.write (nd, 1023) (entry nd 3)) := by
  have hnd : nd ∈ insert nd dirs := Finset.mem_insert_self nd dirs
  have hother : ∀ f k, ¬(f = nd ∧ k = 1023) → (m.write (nd, 1023) (entry nd 3)).mem f k = m.mem f k :=
    fun f k hx => if_neg hx
  refine ⟨private_mem h.keeps rfl (fun e _ k hk => hother e k fun hc => absurd hc.2 (by omega))
    (fun e he i t ht k _ => hother t k fun hc => ?_) fun t ht => funext fun k => hother t k fun hc => ?_,
    fun e he => ?_, fun e he i w hw => ?_⟩
  · exact (h.keeps.table e he i t ht).2 (hc.1 ▸ hnd)
  · exact (h.keeps.dir nd hnd).2 (hc.1 ▸ (h.keeps.kernel t ht).1)
  · rcases Finset.mem_insert.mp he with rfl | he
    · exact if_pos ⟨rfl, rfl⟩
    · rw [hother e _ fun hc => hq.out (hc.1 ▸ he), h.dir e he]
      exact hq.complete.recursive e he
  · have hi := (hq.proper i w hw).1
    rw [hother e i fun hc => absurd hc.2 (by omega)]
    rcases Finset.mem_insert.mp he with rfl | he
    · exact h.low i (by omega) w hw
    · rw [h.dir e he]
      exact hq.complete.low e he i w hw

/-- The loop over the directory ends with a finished directory or with nothing. -/
theorem cloneEntries_spec (hq : Parent b dirs m₀ nd) : ∀ c i m, i+c = 1024 →
    Cloned b R dirs m₀ nd i m → ∀ done, Machine.cloneEntries nd (List.range' i c) m = done →
      (done.1 = true ∧ Cloned b R dirs m₀ nd 1024 done.2) ∨
      (done.1 = false ∧ Sound b R dirs done.2 ∧ SameSpace m₀ done.2) := by
  intro c
  induction c with
  | zero =>
    rintro i m hic h done rfl
    have : i = 1024 := by omega
    exact Or.inl ⟨rfl, this ▸ h⟩
  | succ c ih =>
    intro i m hic h done hdone
    rw [List.range'_succ] at hdone
    simp only [Machine.cloneEntries, cloned_pde hq h (show i < 1024 by omega)] at hdone
    by_cases h3 : i = 1023
    · rw [if_pos h3] at hdone
      exact ih (i+1) m (by omega) (cloned_skip hq h (by omega) fun hne => absurd h3 hne) done hdone
    · rw [if_neg h3] at hdone
      cases hp : present (m₀.mem m₀.cr3 i) with
      | false =>
        simp only [hp, Bool.not_false, if_true] at hdone
        exact ih (i+1) m (by omega) (cloned_skip hq h (by omega) fun _ => hp) done hdone
      | true =>
        cases hu : user (m₀.mem m₀.cr3 i) with
        | false =>
          simp only [hp, hu, Bool.not_false, Bool.not_true, Bool.false_eq_true, if_false,
            if_true] at hdone
          exact ih (i+1) _ (by omega) (cloned_copy hq h (by omega) hp hu) done hdone
        | true =>
          simp only [hp, hu, Bool.not_true, Bool.false_eq_true, if_false] at hdone
          by_cases h0 : m.allocFrame.1 = 0
          · rw [if_pos h0] at hdone
            subst hdone
            obtain ⟨h1, h2⟩ := cloned_undo hq h (show i ≤ 1023 by omega)
            exact Or.inr ⟨rfl, h1, h2⟩
          · rw [if_neg h0] at hdone
            exact ih (i+1) _ (by omega) (cloned_table hq h (by omega) hp hu h0
              (tableCloned hq h (by omega) hp hu h0)) done hdone

/-- A directory that was cloned is one more live directory. -/
theorem cowCloneDirectory_sound (hb : Proper b) (h : Sound b R dirs m) (hl : m.cr3 ∈ dirs)
    (hroom : Room m.pmm m m.cr3 0) {r : ℕ × Machine} (hr : m.cowCloneDirectory = r) :
    SameSpace m r.2 ∧ (r.1 = 0 → Sound b R dirs r.2) ∧
      (r.1 ≠ 0 → Sound b R (insert r.1 dirs) r.2) := by
  unfold Machine.cowCloneDirectory at hr
  by_cases h0 : m.allocFrame.1 = 0
  · simp only [if_pos h0] at hr
    subst hr
    exact ⟨⟨rfl, rfl⟩, fun _ => sound_allocFrame h, fun hne => absurd rfl hne⟩
  · simp only [if_neg h0] at hr
    obtain ⟨ht, hfix⟩ := taken_alloc h h0
    have hnd := fun e he => taken_not_dir (d := e) ht he
    have hrm : Room m.allocFrame.2.pmm m m.cr3 0 := by
      refine room_allocFrame hroom fun f k hk hf => ?_
      rw [← slots_dir (G := noGhost) hl] at hk
      exact h.keeps.covered.held _ f hk hf
    have hmem1 := Machine.allocFrame_mem m
    have hsp1 : SameSpace m m.allocFrame.2 := ⟨rfl, rfl⟩
    generalize m.allocFrame.1 = nd at *
    generalize m.allocFrame.2 = m1 at *
    have hother : ∀ g, g ≠ nd → (m1.clear nd).mem g = m.mem g := by
      intro g hg
      rw [← hmem1]
      funext k
      exact if_neg fun hc => hg hc.1
    have hzero : ∀ k < 1024, (m1.clear nd).mem nd k = 0 := fun k hk => if_pos ⟨rfl, hk⟩
    have hspc : SameSpace m (m1.clear nd) := hsp1
    have hpmm : (m1.clear nd).pmm = m1.pmm := rfl
    have htr : Taken b R noGhost dirs (m1.clear nd) nd :=
      taken_mem ht hfix rfl fun g hg => by rw [hother g hg, hmem1]
    generalize m1.clear nd = m₀ at *
    have hins : Private b R noGhost (insert nd dirs) m₀ := by
      refine taken_insertDir htr (fun _ => rfl) hfix fun k hk hp => ?_
      rw [hzero k (by omega)] at hp
      exact absurd hp (by decide)
    have hdir : ∀ e ∈ dirs, m₀.mem e = m.mem e := fun e he => hother e (hnd e he)
    have hpage : ∀ n, pteAt m₀ m.cr3 n = pteAt m m.cr3 n := fun n =>
      pteAt_kept (hdir _ hl) fun s hs => hother s fun heq => by
        subst heq
        have hs' : tableAt m1 m.cr3 (n/1024) = some s := by
          rw [← hs]
          exact tableAt_congr (by rw [hmem1])
        exact taken_not_table ht hl hs' rfl
    have hq : Parent b dirs m₀ nd :=
      ⟨hb, complete_dirs h.complete hdir, by rwa [hspc.1], fun he => hnd nd he rfl⟩
    have hstart : Cloned b R dirs m₀ nd 0 m₀ := by
      refine ⟨hins, fun _ _ => rfl, ⟨rfl, rfl⟩, fun k hk => absurd hk (by omega),
        fun k hk _ => hzero k hk, fun k t hkt => ?_, fun _ => rfl, fun f hf => ?_⟩
      · have hp := (tableAt_some hkt).2.1
        rw [hzero k (by have := (tableAt_some hkt).1; omega)] at hp
        exact absurd hp (by decide)
      · have hsame : pagesFrom m₀ m₀.cr3 (1024*0) f = pagesFrom m m.cr3 0 f := by
          rw [hspc.1]
          unfold pagesFrom
          simp only [hpage]
        rw [hsame, hpmm]
        exact hrm f (hpmm ▸ hf)
    obtain ⟨done, hdone⟩ : ∃ done, Machine.cloneEntries nd (List.range' 0 1024) m₀ = done := ⟨_, rfl⟩
    have hspec := cloneEntries_spec hq 1024 0 m₀ rfl hstart done hdone
    rw [List.range_eq_range', hdone] at hr
    rcases hspec with ⟨hok, hcl⟩ | ⟨hfail, hs, hsp⟩
    · rw [hok, if_pos rfl] at hr
      subst hr
      exact ⟨⟨hcl.space.1.trans hspc.1, hcl.space.2.trans hspc.2⟩, fun hne => absurd hne h0,
        fun _ => cloned_finish hq hcl⟩
    · rw [hfail, if_neg (by simp)] at hr
      subst hr
      exact ⟨⟨hsp.1.trans hspc.1, hsp.2.trans hspc.2⟩, fun _ => hs, fun hne => absurd rfl hne⟩

end Fork

end Vlsmc.AddressSpaceClone
