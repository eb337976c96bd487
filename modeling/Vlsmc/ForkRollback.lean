import Vlsmc.CountedLoops
import Vlsmc.CowClone
import Vlsmc.FrameSupply

/-!
# The rollback of a failed fork

`cow_clone_directory` goes through the tables of the parent and write-protects their pages. When
a table cannot be allocated, it walks over what it made so far and gives every copy-on-write page
back as a writable one. Pages that were copy-on-write before the fork become writable too.
-/

set_option autoImplicit false

namespace Vlsmc.ForkRollback
open Vlsmc.CountedLoops
open Vlsmc.Words Vlsmc.PhysicalMemory Vlsmc.Paging Vlsmc.CowClone Vlsmc.FrameSupply

/-- The tables of user pages below entry `i` of the directory. -/
def tablesBelow (m : Machine) : ℕ → ℕ
  | 0 => 0
  | i+1 => tablesBelow m i+if (tableAt m m.cr3 i).isSome then 1 else 0

/-- The first `n` entries of a table that are present with frame `f`. -/
def tablePages (words : ℕ → ℕ) (f n : ℕ) : ℕ :=
  (List.range n).countP fun j => present (words j) && (frameOf (words j) == f)

/-- The user pages below entry `i` of the directory with frame `f`. -/
def pagesOf (m : Machine) (f : ℕ) : ℕ → ℕ
  | 0 => 0
  | i+1 => pagesOf m f i+(match tableAt m m.cr3 i with
    | none => 0
    | some s => tablePages (m.mem s) f 1024)

/-- The loaded directory has its recursive entry and tables of its own, its pages are in use,
and a frame in nobody's use is not counted. -/
structure Parent (m : Machine) : Prop where
  recursive : frameOf (m.mem m.cr3 1023) = m.cr3
  null : m.pmm.memoryBitmap 0 = true
  dir : m.pmm.memoryBitmap m.cr3 = true
  tables : ∀ i s, tableAt m m.cr3 i = some s → m.pmm.memoryBitmap s = true ∧ s ≠ m.cr3
  distinct : ∀ i j s, tableAt m m.cr3 i = some s → tableAt m m.cr3 j = some s → i = j
  pages : ∀ n w, pteAt m m.cr3 n = some w → frameOf w < m.pmm.maxFrames →
    m.pmm.memoryBitmap (frameOf w) = true ∧ 1 ≤ m.pmm.refcounts (frameOf w)
  free : ∀ f, Free m.pmm f → m.pmm.refcounts f = 0
  byte : ∀ f, m.pmm.refcounts f ≤ 255

/-- What the claim of a page table entry is about: frame, `PAGE_WRITABLE` and `PAGE_COW`. -/
def shape (w : ℕ) : ℕ×Bool×Bool := (frameOf w, writable w, cow w)

structure Unchanged (m m' : Machine) : Prop where
  pages : ∀ n, (pteAt m' m.cr3 n).map shape = (pteAt m m.cr3 n).map shape
  refcounts : ∀ f, m'.pmm.refcounts f = m.pmm.refcounts f
  memoryBitmap : ∀ f, m'.pmm.memoryBitmap f = m.pmm.memoryBitmap f

/-- The frames run out at the table of entry `i`. -/
def FailsAt (m : Machine) (i : ℕ) : Prop :=
  i < 1024 ∧ (tableAt m m.cr3 i).isSome = true ∧ Gives m.pmm (tablesBelow m i+1) ∧
    ¬ Gives m.pmm (tablesBelow m i+2)

/-- The pages below entry `i` are not copy-on-write, and their counts reach 255 at most while
both sides hold them. -/
def Restorable (m : Machine) (i : ℕ) : Prop :=
  ∀ n w, n/1024 < i → pteAt m m.cr3 n = some w → cow w = false ∧
    (frameOf w < m.pmm.maxFrames → m.pmm.refcounts (frameOf w)+pagesOf m (frameOf w) i ≤ 255)

section Counts

variable {p : Pmm} {words : ℕ → ℕ}

theorem tablePages_succ (words : ℕ → ℕ) (f n : ℕ) : tablePages words f (n+1) =
    tablePages words f n+if present (words n) = true ∧ frameOf (words n) = f then 1 else 0 := by
  rw [tablePages, List.range_succ, List.countP_append, List.countP_singleton]
  simp [tablePages]

theorem tablePages_congr {words' : ℕ → ℕ} {n : ℕ} (h : ∀ j < n, words' j = words j) (f : ℕ) :
    tablePages words' f n = tablePages words f n := by
  induction n with
  | zero => rfl
  | succ n ih =>
    rw [tablePages_succ, tablePages_succ, ih fun j hj => h j (by omega), h n (by omega)]

theorem sameSupply_countShared (p : Pmm) (words : ℕ → ℕ) (n : ℕ) :
    SameSupply p (countShared p words n) := by
  induction n with
  | zero => exact sameSupply_refl p
  | succ n ih =>
    rw [countShared_succ]
    split
    · exact sameSupply_trans ih (sameSupply_incRef _ _)
    · exact ih

/-- Every page of the table counts once, up to 255. -/
theorem countShared_refcounts (hb : ∀ f, p.refcounts f ≤ 255) (words : ℕ → ℕ) (n f : ℕ) :
    (countShared p words n).refcounts f =
      if f < p.maxFrames then min 255 (p.refcounts f+tablePages words f n) else p.refcounts f := by
  have hbyte := hb f
  induction n with
  | zero =>
    have h0 : tablePages words f 0 = 0 := rfl
    rw [h0, Nat.add_zero, Nat.min_eq_right hbyte]
    exact (ite_self _).symm
  | succ n ih =>
    have hmax := countShared_maxFrames p words n
    rw [countShared_succ, tablePages_succ]
    by_cases hp : present (words n) = true
    · rw [if_pos hp]
      by_cases hf : frameOf (words n) = f
      · have hone : (if present (words n) = true ∧ frameOf (words n) = f then 1 else 0) = 1 :=
          if_pos ⟨hp, hf⟩
        rw [hone, hf, Pmm.incRef, hmax]
        by_cases hlt : f < p.maxFrames
        · rw [if_pos hlt] at ih ⊢
          by_cases h255 : (countShared p words n).refcounts f < 255
          · rw [if_pos ⟨hlt, h255⟩, setRefcount_refcounts]
            omega
          · rw [if_neg fun h => h255 h.2]
            omega
        · rw [if_neg fun h => hlt h.1, ih, if_neg hlt, if_neg hlt]
      · have hzero : (if present (words n) = true ∧ frameOf (words n) = f then 1 else 0) = 0 :=
          if_neg fun h => hf h.2
        rw [hzero, (incRef_same _ (Ne.symm hf)).2, ih, Nat.add_zero]
    · have hzero : (if present (words n) = true ∧ frameOf (words n) = f then 1 else 0) = 0 :=
        if_neg fun h => hp h.1
      rw [if_neg hp, hzero, ih, Nat.add_zero]

/-- The counts after `dec_ref` for the first `n` entries of a table. -/
def dropShared (p : Pmm) (words : ℕ → ℕ) (n : ℕ) : Pmm :=
  (List.range n).foldl
    (fun p j => if present (words j) then p.decRef (frameOf (words j)) else p) p

theorem dropShared_succ (p : Pmm) (words : ℕ → ℕ) (n : ℕ) :
    dropShared p words (n+1) = if present (words n) then
      (dropShared p words n).freeFrame (frameOf (words n)) else dropShared p words n := by
  rw [dropShared, List.range_succ, List.foldl_append, ← decRef_eq]
  rfl

theorem freeFrame_refcounts (p : Pmm) (f : ℕ) : (p.freeFrame f).refcounts f =
    if f < p.maxFrames then p.refcounts f-1 else p.refcounts f := by
  by_cases hlt : f < p.maxFrames
  · rw [if_pos hlt]
    by_cases h1 : 1 < p.refcounts f
    · exact (freeFrame_shared p hlt h1).2
    · rw [(freeFrame_last p hlt (by omega)).2]
      omega
  · rw [if_neg hlt, Pmm.freeFrame, if_pos (by omega)]

theorem freeFrame_bit (p : Pmm) {f : ℕ} (h : f < p.maxFrames → 1 < p.refcounts f) :
    (p.freeFrame f).memoryBitmap f = p.memoryBitmap f := by
  by_cases hlt : f < p.maxFrames
  · exact (freeFrame_shared p hlt (h hlt)).1
  · rw [Pmm.freeFrame, if_pos (by omega)]

theorem dropShared_spec (p : Pmm) (words : ℕ → ℕ) (n : ℕ) :
    (dropShared p words n).maxFrames = p.maxFrames ∧ ∀ f,
      ((dropShared p words n).refcounts f =
        if f < p.maxFrames then p.refcounts f-tablePages words f n else p.refcounts f) ∧
      ((f < p.maxFrames → tablePages words f n < p.refcounts f ∨ tablePages words f n = 0) →
        (dropShared p words n).memoryBitmap f = p.memoryBitmap f) := by
  induction n with
  | zero => exact ⟨rfl, fun f => ⟨(ite_self _).symm, fun _ => rfl⟩⟩
  | succ n ih =>
    obtain ⟨hmax, hcounts⟩ := ih
    rw [dropShared_succ]
    by_cases hp : present (words n) = true
    · rw [if_pos hp]
      refine ⟨by rw [freeFrame_maxFrames, hmax], fun f => ?_⟩
      obtain ⟨hcount, hbit⟩ := hcounts f
      rw [tablePages_succ]
      by_cases hf : frameOf (words n) = f
      · have hone : (if present (words n) = true ∧ frameOf (words n) = f then 1 else 0) = 1 :=
          if_pos ⟨hp, hf⟩
        rw [hone, hf, freeFrame_refcounts, hmax, hcount]
        refine ⟨?_, fun hlow => ?_⟩
        · split_ifs <;> omega
        · rw [freeFrame_bit _ fun hlt => ?_, hbit fun hlt => ?_]
          · have := hlow hlt
            omega
          · rw [hmax] at hlt
            have := hlow hlt
            rw [hcount, if_pos hlt]
            omega
      · have hsame := freeFrame_same (dropShared p words n) (Ne.symm hf)
        have hzero : (if present (words n) = true ∧ frameOf (words n) = f then 1 else 0) = 0 :=
          if_neg fun h => hf h.2
        rw [hzero, Nat.add_zero, hsame.1, hsame.2]
        exact hcounts f
    · rw [if_neg hp]
      refine ⟨hmax, fun f => ?_⟩
      have hzero : (if present (words n) = true ∧ frameOf (words n) = f then 1 else 0) = 0 :=
        if_neg fun h => hp h.1
      rw [tablePages_succ, hzero, Nat.add_zero]
      exact hcounts f

end Counts

/-- The count of a frame while both sides hold the pages below entry `i`. -/
def raised (m : Machine) (f i : ℕ) : ℕ :=
  if f < m.pmm.maxFrames then min 255 (m.pmm.refcounts f+pagesOf m f i) else m.pmm.refcounts f

/-- The frames of the new directory and of its tables below entry `i`. -/
def Taken (m : Machine) (nd i : ℕ) (c : Machine) (f : ℕ) : Prop :=
  f = nd ∨ ∃ k < i, (tableAt m m.cr3 k).isSome = true ∧ frameOf (c.mem nd k) = f

/-- The loop over the directory before entry `i`, with the new directory in frame `nd`. -/
structure Made (m : Machine) (nd i : ℕ) (c : Machine) : Prop where
  cr3 : c.cr3 = m.cr3
  dir : ∀ k, c.mem m.cr3 k = m.mem m.cr3 k
  parent : ∀ k s, tableAt m m.cr3 k = some s → ∀ j < 1024,
    c.mem s j = if k < i then cloned (m.mem s j) else m.mem s j
  child : ∀ k, (tableAt c nd k).isSome = true ↔ k < i ∧ (tableAt m m.cr3 k).isSome = true
  copies : ∀ k < i, ∀ s, tableAt m m.cr3 k = some s → ∀ j < 1024,
    c.mem (frameOf (c.mem nd k)) j = inherited (m.mem s j)
  freshDir : Free m.pmm nd
  freshTables : ∀ k < i, (tableAt m m.cr3 k).isSome = true →
    Free m.pmm (frameOf (c.mem nd k)) ∧ frameOf (c.mem nd k) ≠ nd
  apart : ∀ k < i, ∀ l < i, (tableAt m m.cr3 k).isSome = true →
    (tableAt m m.cr3 l).isSome = true → frameOf (c.mem nd k) = frameOf (c.mem nd l) → k = l
  taken : ∀ f, Taken m nd i c f → c.pmm.memoryBitmap f = true ∧ c.pmm.refcounts f = 1
  others : ∀ f, ¬ Taken m nd i c f →
    c.pmm.memoryBitmap f = m.pmm.memoryBitmap f ∧ c.pmm.refcounts f = raised m f i
  gives : Gives m.pmm (tablesBelow m i+1)
  supply : SameSupply (allocFrames m.pmm (tablesBelow m i+1)) c.pmm

section Cloning

variable {m c : Machine} {nd i : ℕ}

theorem made_maxFrames (h : Made m nd i c) : c.pmm.maxFrames = m.pmm.maxFrames :=
  h.supply.maxFrames.trans (allocFrames_maxFrames _ _)

theorem taken_free (h : Made m nd i c) {f : ℕ} (hf : Taken m nd i c f) : Free m.pmm f := by
  rcases hf with rfl | ⟨k, hk, hs, rfl⟩
  · exact h.freshDir
  · exact (h.freshTables k hk hs).1

theorem used_not_taken (h : Made m nd i c) {f : ℕ} (hf : m.pmm.memoryBitmap f = true) :
    ¬ Taken m nd i c f := fun ht => by
  have hfree := (taken_free h ht).bit
  rw [hf] at hfree
  exact absurd hfree (by decide)

theorem made_pde (hm : Parent m) (h : Made m nd i c) {k : ℕ} (hk : k < 1024) :
    c.read (c.pdePtr k) = m.mem m.cr3 k := by
  have hrec : frameOf (c.mem c.cr3 1023) = c.cr3 := by rw [h.cr3, h.dir, hm.recursive]
  rw [pdePtr_eq hrec hk, h.cr3]
  exact h.dir k

theorem tablesBelow_none (ht : tableAt m m.cr3 i = none) : tablesBelow m (i+1) = tablesBelow m i := by
  rw [tablesBelow, ht]
  rfl

theorem tablesBelow_some {s : ℕ} (ht : tableAt m m.cr3 i = some s) :
    tablesBelow m (i+1) = tablesBelow m i+1 := by
  rw [tablesBelow, ht]
  rfl

/-- An entry without a table of its own changes at most the entry of the new directory. -/
theorem made_skip (hm : Parent m) (h : Made m nd i c) (ht : tableAt m m.cr3 i = none)
    {c' : Machine} (hcr3 : c'.cr3 = c.cr3) (hpmm : c'.pmm = c.pmm)
    (hmem : ∀ f k, f ≠ nd ∨ k ≠ i → c'.mem f k = c.mem f k) (hnew : tableAt c' nd i = none) :
    Made m nd (i+1) c' := by
  have hndDir : m.cr3 ≠ nd := fun he => by
    have hbit := h.freshDir.bit
    rw [← he, hm.dir] at hbit
    exact absurd hbit (by decide)
  have hlt : ∀ k, k < i+1 → (tableAt m m.cr3 k).isSome = true → k < i := by
    intro k hk hs
    have hki : k ≠ i := fun he => by
      rw [he, ht] at hs
      exact absurd hs (by decide)
    omega
  have hentry : ∀ k, k ≠ i → c'.mem nd k = c.mem nd k := fun k hk => hmem nd k (Or.inr hk)
  have htaken : ∀ f, Taken m nd (i+1) c' f ↔ Taken m nd i c f := by
    intro f
    constructor
    · rintro (he | ⟨k, hk, hs, he⟩)
      · exact Or.inl he
      · have hki := hlt k hk hs
        exact Or.inr ⟨k, hki, hs, by rw [← hentry k (by omega), he]⟩
    · rintro (he | ⟨k, hk, hs, he⟩)
      · exact Or.inl he
      · exact Or.inr ⟨k, by omega, hs, by rw [hentry k (by omega), he]⟩
  have hpages : ∀ f, raised m f (i+1) = raised m f i := by
    intro f
    have hsame : pagesOf m f (i+1) = pagesOf m f i := by
      rw [pagesOf, ht]
      rfl
    rw [raised, raised, hsame]
  refine ⟨hcr3.trans h.cr3, fun k => ?_, fun k s hs j hj => ?_, fun k => ?_, fun k hk s hs j hj => ?_,
    h.freshDir, fun k hk hs => ?_, fun k hk l hl hks hls he => ?_, fun f hf => ?_, fun f hf => ?_,
    ?_, ?_⟩
  · rw [hmem _ _ (Or.inl hndDir), h.dir]
  · have hsnd : s ≠ nd := fun he => by
      have hbit := (hm.tables k s hs).1
      rw [he, h.freshDir.bit] at hbit
      exact absurd hbit (by decide)
    have hki : k ≠ i := fun he => by
      rw [he, ht] at hs
      exact absurd hs (by simp)
    have hiff : k < i+1 ↔ k < i := by omega
    rw [hmem _ _ (Or.inl hsnd), h.parent k s hs j hj]
    simp only [hiff]
  · by_cases hki : k = i
    · rw [hki, hnew, ht]
      simp
    · have hiff : k < i+1 ↔ k < i := by omega
      rw [tableAt_congr (hentry k hki), h.child k, hiff]
  · have hki := hlt k hk (by rw [hs]; rfl)
    have hfree := h.freshTables k hki (by rw [hs]; rfl)
    rw [hentry k (by omega), hmem _ _ (Or.inl hfree.2)]
    exact h.copies k hki s hs j hj
  · have hki := hlt k hk hs
    rw [hentry k (by omega)]
    exact h.freshTables k hki hs
  · have hki := hlt k hk hks
    have hli := hlt l hl hls
    rw [hentry k (by omega), hentry l (by omega)] at he
    exact h.apart k hki l hli hks hls he
  · rw [hpmm]
    exact h.taken f ((htaken f).mp hf)
  · rw [hpmm, hpages]
    exact h.others f fun hn => hf ((htaken f).mpr hn)
  · rw [tablesBelow_none ht]
    exact h.gives
  · rw [tablesBelow_none ht, hpmm]
    exact h.supply

/-- The memory and the counts after an entry whose table gets frame `t`. -/
structure Copied (c : Machine) (nd i s t : ℕ) (c' : Machine) : Prop where
  cr3 : c'.cr3 = c.cr3
  pmm : c'.pmm = countShared c.pmm.allocFrame.2 (c.mem s) 1024
  mem : ∀ f k, c'.mem f k = if f = nd ∧ k = i then entry t 7
    else if f = t ∧ k < 1024 then inherited (c.mem s k)
    else if f = s ∧ k < 1024 then cloned (c.mem s k) else c.mem f k

/-- A frame that is allocated now was free at the start and is none of those taken so far. -/
theorem alloc_fresh (h : Made m nd i c) (h0 : c.allocFrame.1 ≠ 0) :
    Free m.pmm c.allocFrame.1 ∧ ¬ Taken m nd i c c.allocFrame.1 := by
  obtain ⟨hfree, -⟩ := alloc_takes h0
  have hnot : ¬ Taken m nd i c c.allocFrame.1 := fun ht => by
    have hset := (h.taken _ ht).1
    rw [Machine.allocFrame_fst, hfree.bit] at hset
    exact absurd hset (by decide)
  refine ⟨⟨?_, ?_⟩, hnot⟩
  · rw [← (h.others _ hnot).1]
    exact hfree.bit
  · rw [← made_maxFrames h]
    exact hfree.bound

theorem copied_table (hm : Parent m) (h : Made m nd i c) {s : ℕ}
    (hs : tableAt m m.cr3 i = some s) (h0 : c.allocFrame.1 ≠ 0) {c' : Machine}
    (hc : (c.allocFrame.2.cloneTable i c.allocFrame.1).write (nd, i) (entry c.allocFrame.1 7) = c') :
    Copied c nd i s c.allocFrame.1 c' := by
  obtain ⟨hfree, -⟩ := alloc_fresh h h0
  have hmem1 := Machine.allocFrame_mem c
  have hcr1 := Machine.allocFrame_cr3 c
  have hpmm1 := Machine.allocFrame_pmm c
  generalize c.allocFrame = a at *
  obtain ⟨t, c1⟩ := a
  dsimp only at *
  have hne : ∀ f, m.pmm.memoryBitmap f = true → t ≠ f := fun f hf he => by
    rw [← he, hfree.bit] at hf
    exact absurd hf (by decide)
  have hcr : c1.cr3 = m.cr3 := hcr1.trans h.cr3
  have hrec : frameOf (c1.mem c1.cr3 1023) = c1.cr3 := by
    rw [hmem1, hcr, h.dir, hm.recursive]
  have hsrc : frameOf (c1.mem c1.cr3 i) = s := by
    rw [hmem1, hcr, h.dir]
    exact (tableAt_some hs).2.2.2
  have htd : t ≠ c1.cr3 := by
    rw [hcr]
    exact hne _ hm.dir
  have hsd : s ≠ c1.cr3 := by
    rw [hcr]
    exact (hm.tables i s hs).2
  obtain ⟨hcr3, -, hpmm, hmem⟩ := cloneTable_spec hrec hsrc htd hsd (hne s (hm.tables i s hs).1)
  rw [hpmm1, hmem1] at hpmm
  rw [hmem1] at hmem
  subst hc
  refine ⟨?_, ?_, fun f k => ?_⟩
  · rw [write_cr3]
    exact hcr3.trans hcr1
  · rw [write_pmm]
    exact hpmm
  · rw [write_mem, hmem]

/-- No page of the parent has a frame that is free. -/
theorem free_unshared (hm : Parent m) {s f : ℕ} (hs : tableAt m m.cr3 i = some s)
    (hf : Free m.pmm f) : tablePages (m.mem s) f 1024 = 0 := by
  refine List.countP_eq_zero.mpr fun j hj hpage => ?_
  simp only [Bool.and_eq_true, beq_iff_eq] at hpage
  have hj1024 : j < 1024 := List.mem_range.mp hj
  have hpte : pteAt m m.cr3 (1024*i+j) = some (m.mem s j) := by
    have h1 : (1024*i+j)/1024 = i := by omega
    have h2 : (1024*i+j)%1024 = j := by omega
    rw [pteAt, h1, h2, hs, Option.bind_some, if_pos hpage.1]
  have hbit := (hm.pages _ _ hpte (by rw [hpage.2]; exact hf.bound)).1
  rw [hpage.2, hf.bit] at hbit
  exact absurd hbit (by decide)

/-- A table that gets its copy. -/
theorem made_table (hm : Parent m) (h : Made m nd i c) {s : ℕ}
    (hs : tableAt m m.cr3 i = some s) (h0 : c.allocFrame.1 ≠ 0) {c' : Machine}
    (hc : Copied c nd i s c.allocFrame.1 c') : Made m nd (i+1) c' := by
  obtain ⟨hfree, hnot⟩ := alloc_fresh h h0
  obtain ⟨-, hmax1, hset1, hone1, hsame1⟩ := alloc_takes h0
  rw [← Machine.allocFrame_fst] at hset1 hone1 hsame1
  generalize ht : c.allocFrame.1 = t at *
  have hused : ∀ f, m.pmm.memoryBitmap f = true → f ≠ nd ∧ f ≠ t := by
    intro f hf
    constructor
    · rintro rfl
      rw [h.freshDir.bit] at hf
      exact absurd hf (by decide)
    · rintro rfl
      rw [hfree.bit] at hf
      exact absurd hf (by decide)
  have hsused := (hm.tables i s hs).1
  have htnd : t ≠ nd := fun he => hnot (Or.inl he)
  have hsnd : s ≠ nd := (hused s hsused).1
  have hsome : (tableAt m m.cr3 i).isSome = true := by rw [hs]; rfl
  have hentry : ∀ k, k ≠ i → c'.mem nd k = c.mem nd k := by
    intro k hk
    rw [hc.mem, if_neg fun hh => hk hh.2, if_neg fun hh => htnd hh.1.symm,
      if_neg fun hh => hsnd hh.1.symm]
  have hnew : c'.mem nd i = entry t 7 := by rw [hc.mem, if_pos ⟨rfl, rfl⟩]
  have hframe : frameOf (c'.mem nd i) = t := by rw [hnew, frameOf_entry _ (by decide)]
  have hother : ∀ f, f ≠ nd → f ≠ t → f ≠ s → c'.mem f = c.mem f := by
    intro f h1 h2 h3
    funext k
    rw [hc.mem, if_neg fun hh => h1 hh.1, if_neg fun hh => h2 hh.1, if_neg fun hh => h3 hh.1]
  have hlt : ∀ k, k < i+1 → k ≠ i → k < i := by omega
  have htaken : ∀ f, Taken m nd (i+1) c' f ↔ Taken m nd i c f ∨ f = t := by
    intro f
    constructor
    · rintro (he | ⟨k, hk, hks, he⟩)
      · exact Or.inl (Or.inl he)
      · by_cases hki : k = i
        · rw [hki, hframe] at he
          exact Or.inr he.symm
        · rw [hentry k hki] at he
          exact Or.inl (Or.inr ⟨k, hlt k hk hki, hks, he⟩)
    · rintro ((he | ⟨k, hk, hks, he⟩) | he)
      · exact Or.inl he
      · exact Or.inr ⟨k, by omega, hks, by rw [hentry k (by omega), he]⟩
      · exact Or.inr ⟨i, by omega, hsome, by rw [hframe, he]⟩
  -- the table of the parent is untouched before this step
  have hwords : ∀ j < 1024, c.mem s j = m.mem s j := fun j hj => by
    rw [h.parent i s hs j hj, if_neg (Nat.lt_irrefl i)]
  have hsupply : SameSupply c.pmm.allocFrame.2 c'.pmm := by
    rw [hc.pmm]
    exact sameSupply_countShared _ _ _
  have hbyte1 : ∀ g, c.pmm.allocFrame.2.refcounts g ≤ 255 := by
    intro g
    by_cases hg : g = t
    · rw [hg, hone1]
      decide
    · rw [(hsame1 g hg).2]
      by_cases hgt : Taken m nd i c g
      · rw [(h.taken g hgt).2]
        decide
      · rw [(h.others g hgt).2, raised]
        split_ifs
        · exact Nat.min_le_left _ _
        · exact hm.byte g
  have hcounts := countShared_refcounts hbyte1 (c.mem s) 1024
  rw [← hc.pmm, hmax1, made_maxFrames h] at hcounts
  simp only [tablePages_congr hwords] at hcounts
  refine ⟨hc.cr3.trans h.cr3, fun k => ?_, fun k s' hs' j hj => ?_, fun k => ?_,
    fun k hk s' hs' j hj => ?_, h.freshDir, fun k hk hks => ?_, fun k hk l hl hks hls he => ?_,
    fun f hf => ?_, fun f hf => ?_, ?_, ?_⟩
  · have hdir := hused m.cr3 hm.dir
    rw [hother _ hdir.1 hdir.2 (hm.tables i s hs).2.symm, h.dir]
  · have hs'used := hused s' (hm.tables k s' hs').1
    by_cases hki : k = i
    · have hss : s' = s := by
        rw [hki, hs] at hs'
        exact (Option.some.inj hs').symm
      rw [hc.mem, if_neg fun hh => hs'used.1 hh.1, if_neg fun hh => hs'used.2 hh.1,
        if_pos ⟨hss, hj⟩, if_pos (by omega), hwords j hj, hss]
    · have hne : s' ≠ s := fun he => hki (hm.distinct k i s (he ▸ hs') hs)
      have hiff : k < i+1 ↔ k < i := by omega
      rw [hother s' hs'used.1 hs'used.2 hne, h.parent k s' hs' j hj]
      simp only [hiff]
  · by_cases hki : k = i
    · rw [hki, tableAt_made (tableAt_some hs).1 hnew, hs]
      simp
    · have hiff : k < i+1 ↔ k < i := by omega
      rw [tableAt_congr (hentry k hki), h.child k, hiff]
  · by_cases hki : k = i
    · have hss : s' = s := by
        rw [hki, hs] at hs'
        exact (Option.some.inj hs').symm
      rw [hki, hframe, hc.mem, if_neg fun hh => htnd hh.1, if_pos ⟨rfl, hj⟩, hwords j hj, hss]
    · have hk' := hlt k hk hki
      have hks : (tableAt m m.cr3 k).isSome = true := by rw [hs']; rfl
      have htab := h.freshTables k hk' hks
      have hnt : frameOf (c.mem nd k) ≠ t := fun he => hnot (Or.inr ⟨k, hk', hks, he⟩)
      have hns : frameOf (c.mem nd k) ≠ s := fun he => by
        have hbit := htab.1.bit
        rw [he, hsused] at hbit
        exact absurd hbit (by decide)
      rw [hentry k hki, hother _ htab.2 hnt hns]
      exact h.copies k hk' s' hs' j hj
  · by_cases hki : k = i
    · rw [hki, hframe]
      exact ⟨hfree, htnd⟩
    · rw [hentry k hki]
      exact h.freshTables k (hlt k hk hki) hks
  · by_cases hki : k = i
    · by_cases hli : l = i
      · rw [hki, hli]
      · rw [hki, hframe, hentry l hli] at he
        exact absurd (Or.inr ⟨l, hlt l hl hli, hls, he.symm⟩) hnot
    · by_cases hli : l = i
      · rw [hli, hframe, hentry k hki] at he
        exact absurd (Or.inr ⟨k, hlt k hk hki, hks, he⟩) hnot
      · rw [hentry k hki, hentry l hli] at he
        exact h.apart k (hlt k hk hki) l (hlt l hl hli) hks hls he
  · have hff : Free m.pmm f := by
      rcases (htaken f).mp hf with hold | rfl
      · exact taken_free h hold
      · exact hfree
    have hnow : c.pmm.allocFrame.2.memoryBitmap f = true ∧
        c.pmm.allocFrame.2.refcounts f = 1 := by
      by_cases hft : f = t
      · rw [hft]
        exact ⟨hset1, hone1⟩
      · have hold := ((htaken f).mp hf).resolve_right hft
        rw [(hsame1 f hft).1, (hsame1 f hft).2]
        exact h.taken f hold
    rw [hsupply.memoryBitmap, hcounts, free_unshared hm hs hff, hnow.2]
    exact ⟨hnow.1, by simp⟩
  · rw [htaken, not_or] at hf
    obtain ⟨hbit, hcount⟩ := h.others f hf.1
    have hpages : pagesOf m f (i+1) = pagesOf m f i+tablePages (m.mem s) f 1024 := by
      rw [pagesOf, hs]
    rw [hsupply.memoryBitmap, hcounts, (hsame1 f hf.2).1, (hsame1 f hf.2).2, hcount, raised, raised,
      hpages]
    refine ⟨hbit, ?_⟩
    split_ifs
    · omega
    · rfl
  · rw [tablesBelow_some hs]
    refine gives_succ.mpr ⟨h.gives, ?_⟩
    rw [← (sameSupply_alloc h.supply).1, ← Machine.allocFrame_fst, ht]
    exact h0
  · rw [tablesBelow_some hs]
    exact sameSupply_trans (sameSupply_alloc h.supply).2 hsupply

/-- The new directory before the loop. -/
theorem made_start (hm : Parent m) (h0 : m.allocFrame.1 ≠ 0) :
    Made m m.allocFrame.1 0 (m.allocFrame.2.clear m.allocFrame.1) := by
  obtain ⟨hfree, -, hset, hone, hsame⟩ := alloc_takes h0
  rw [← Machine.allocFrame_fst] at hfree hset hone hsame
  have hgive : m.pmm.allocFrame.1 ≠ 0 := h0
  have hmem : ∀ f k, (m.allocFrame.2.clear m.allocFrame.1).mem f k =
      if f = m.allocFrame.1 ∧ k < 1024 then 0 else m.mem f k := fun _ _ => rfl
  have hpmm : (m.allocFrame.2.clear m.allocFrame.1).pmm = m.pmm.allocFrame.2 := rfl
  have hcr3 : (m.allocFrame.2.clear m.allocFrame.1).cr3 = m.cr3 := rfl
  generalize m.allocFrame.2.clear m.allocFrame.1 = c at hmem hpmm hcr3
  generalize m.allocFrame.1 = nd at *
  have hused : ∀ f, m.pmm.memoryBitmap f = true → f ≠ nd := by
    rintro f hf rfl
    rw [hfree.bit] at hf
    exact absurd hf (by decide)
  have htaken : ∀ f, Taken m nd 0 c f ↔ f = nd := by
    intro f
    constructor
    · rintro (he | ⟨k, hk, -⟩)
      · exact he
      · exact absurd hk (Nat.not_lt_zero k)
    · exact Or.inl
  refine ⟨hcr3, fun k => ?_, fun k s hs j _ => ?_, fun k => ?_, fun k hk => by omega, hfree,
    fun k hk => by omega, fun k hk => by omega, fun f hf => ?_, fun f hf => ?_, ?_, ?_⟩
  · rw [hmem, if_neg fun hh => hused _ hm.dir hh.1]
  · rw [hmem, if_neg fun hh => hused s (hm.tables k s hs).1 hh.1, if_neg (Nat.not_lt_zero k)]
  · have hnone : tableAt c nd k = none := by
      unfold tableAt
      rw [if_neg]
      rintro ⟨hk, hp, -⟩
      rw [hmem, if_pos ⟨rfl, by omega⟩] at hp
      exact absurd hp (by decide)
    rw [hnone]
    simp
  · rw [(htaken f).mp hf, hpmm]
    exact ⟨hset, hone⟩
  · have hne : f ≠ nd := fun he => hf ((htaken f).mpr he)
    have hbyte := hm.byte f
    rw [hpmm, (hsame f hne).1, (hsame f hne).2, raised]
    refine ⟨rfl, ?_⟩
    have hmin : min 255 (m.pmm.refcounts f+pagesOf m f 0) = m.pmm.refcounts f :=
      Nat.min_eq_right hbyte
    rw [hmin]
    exact (ite_self _).symm
  · intro k hk
    obtain rfl : k = 0 := by
      have : tablesBelow m 0 = 0 := rfl
      omega
    exact hgive
  · rw [hpmm]
    exact sameSupply_refl _

/-- The loop gets to the end, or to the table where the frames run out. -/
theorem cloneEntries_ends (hm : Parent m) (n : ℕ) : ∀ i c, i+n = 1024 → Made m nd i c →
    ((Machine.cloneEntries nd (List.range' i n) c).1 = true ∧
      Gives m.pmm (tablesBelow m 1024+1)) ∨
    ∃ k c', FailsAt m k ∧ Made m nd k c' ∧ Machine.cloneEntries nd (List.range' i n) c =
      (false, ((List.range k).foldl (fun m l => m.undoTable nd l) c').freeFrame nd) := by
  induction n with
  | zero =>
    intro i c hin h
    have hi : i = 1024 := by omega
    rw [hi] at h
    exact Or.inl ⟨rfl, h.gives⟩
  | succ n ih =>
    intro i c hin h
    rw [List.range'_succ]
    simp only [Machine.cloneEntries, made_pde hm h (show i < 1024 by omega)]
    have hold : tableAt m m.cr3 i = none → tableAt c nd i = none := by
      intro _
      have hno : (tableAt c nd i).isSome ≠ true := fun hs => by
        have := ((h.child i).mp hs).1
        omega
      simpa using hno
    by_cases h3 : i = 1023
    · have hnone : tableAt m m.cr3 i = none := if_neg fun hc => by omega
      rw [if_pos h3]
      exact ih (i+1) c (by omega) (made_skip hm h hnone rfl rfl (fun _ _ _ => rfl) (hold hnone))
    · rw [if_neg h3]
      cases hp : present (m.mem m.cr3 i) with
      | false =>
        have hnone : tableAt m m.cr3 i = none := if_neg fun hc => by simp [hp] at hc
        simp only [Bool.not_false, if_true]
        exact ih (i+1) c (by omega) (made_skip hm h hnone rfl rfl (fun _ _ _ => rfl) (hold hnone))
      | true =>
        cases hu : user (m.mem m.cr3 i) with
        | false =>
          have hnone : tableAt m m.cr3 i = none := if_neg fun hc => by simp [hu] at hc
          simp only [Bool.not_false, Bool.not_true, Bool.false_eq_true, if_false, if_true]
          refine ih (i+1) _ (by omega) (made_skip hm h hnone rfl rfl (fun f k hfk => ?_) ?_)
          · exact if_neg fun hh => hfk.elim (fun h1 => h1 hh.1) fun h2 => h2 hh.2
          · refine if_neg fun hc => ?_
            have hpde : (c.write (nd, i) (m.mem m.cr3 i)).mem nd i = m.mem m.cr3 i :=
              if_pos ⟨rfl, rfl⟩
            rw [hpde, hu] at hc
            exact absurd hc.2.2 (by decide)
        | true =>
          have hs := tableAt_of (by omega) hp hu
          simp only [Bool.not_true, Bool.false_eq_true, if_false]
          by_cases h0 : c.allocFrame.1 = 0
          · have hsame : c.allocFrame.2 = c := by
              have hnull := (h.others 0 (used_not_taken h hm.null)).1
              have hpmm := alloc_fails (hnull.trans hm.null) h0
              change { c with pmm := c.pmm.allocFrame.2 } = c
              rw [hpmm]
            rw [if_pos h0, hsame]
            refine Or.inr ⟨i, c, ⟨by omega, by rw [hs]; rfl, h.gives, fun hg => ?_⟩, h, rfl⟩
            have hgive := (gives_succ.mp hg).2
            rw [← (sameSupply_alloc h.supply).1] at hgive
            exact hgive h0
          · rw [if_neg h0]
            exact ih (i+1) _ (by omega) (made_table hm h hs h0 (copied_table hm h hs h0 rfl))

end Cloning

/-- The parent's entry when the rollback has been over it. -/
def undone (w : ℕ) : ℕ :=
  if present w && cow (cloned w) then entry (frameOf w) 7 else cloned w

/-- The body of the inner loop of the rollback, for table `pt` of the child. -/
def undoPage (k pt : ℕ) (m : Machine) (j : ℕ) : Machine :=
  if present (m.mem pt j) then
    let phys := frameOf (m.mem pt j)
    let m := m.decRef phys
    if cow (m.mem pt j) then m.write (m.ptePtr (Machine.virtOf k j)) (entry phys 7) else m
  else m

/-- The rollback before entry `k`, that of a loop which failed at entry `i` in `c₀`. -/
structure Undone (m : Machine) (nd i k : ℕ) (c₀ c : Machine) : Prop where
  cr3 : c.cr3 = m.cr3
  dir : ∀ l, c.mem m.cr3 l = m.mem m.cr3 l
  newDir : ∀ l, c.mem nd l = c₀.mem nd l
  copies : ∀ l < i, (tableAt m m.cr3 l).isSome = true →
    ∀ j, c.mem (frameOf (c₀.mem nd l)) j = c₀.mem (frameOf (c₀.mem nd l)) j
  parent : ∀ l s, tableAt m m.cr3 l = some s → ∀ j < 1024,
    c.mem s j = if l < k then undone (m.mem s j) else c₀.mem s j
  maxFrames : c.pmm.maxFrames = m.pmm.maxFrames
  taken : ∀ f, (f = nd ∨ ∃ l, k ≤ l ∧ l < i ∧ (tableAt m m.cr3 l).isSome = true ∧
    frameOf (c₀.mem nd l) = f) → c.pmm.memoryBitmap f = true ∧ c.pmm.refcounts f = 1
  freed : ∀ l < k, (tableAt m m.cr3 l).isSome = true →
    c.pmm.memoryBitmap (frameOf (c₀.mem nd l)) = false ∧
    c.pmm.refcounts (frameOf (c₀.mem nd l)) = 0
  counts : ∀ f, ¬ Taken m nd i c₀ f → c.pmm.refcounts f =
    if f < m.pmm.maxFrames then raised m f i-pagesOf m f k else raised m f i
  bits : ∀ f, ¬ Taken m nd i c₀ f →
    (f < m.pmm.maxFrames → pagesOf m f k < raised m f i ∨ pagesOf m f k = 0) →
    c.pmm.memoryBitmap f = m.pmm.memoryBitmap f

section Undoing

variable {m c c₀ : Machine} {nd i k s pt : ℕ}

theorem undoPages_spec (hrec : frameOf (c.mem c.cr3 1023) = c.cr3)
    (hs : frameOf (c.mem c.cr3 k) = s) (hsd : s ≠ c.cr3) (hps : pt ≠ s) :
    ∀ n ≤ 1024, ∀ c', (List.range n).foldl (undoPage k pt) c = c' →
      c'.cr3 = c.cr3 ∧ c'.pmm = dropShared c.pmm (c.mem pt) n ∧
      ∀ f x, c'.mem f x =
        if f = s ∧ x < n ∧ present (c.mem pt x) = true ∧ cow (c.mem pt x) = true then
          entry (frameOf (c.mem pt x)) 7 else c.mem f x := by
  intro n
  induction n with
  | zero =>
    rintro - c' rfl
    exact ⟨rfl, rfl, fun f x => by simp⟩
  | succ n ih =>
    intro hn c'' hc''
    obtain ⟨hcr3, hpmm, hmem⟩ := ih (by omega) _ rfl
    rw [List.range_succ, List.foldl_append, List.foldl_cons, List.foldl_nil] at hc''
    generalize (List.range n).foldl (undoPage k pt) c = c' at hcr3 hpmm hmem hc''
    have hdir : ∀ x, c'.mem c'.cr3 x = c.mem c.cr3 x := fun x => by
      rw [hcr3, hmem, if_neg fun hh => hsd hh.1.symm]
    have hword : ∀ x, c'.mem pt x = c.mem pt x := fun x => by
      rw [hmem, if_neg fun hh => hps hh.1]
    have hptr : (c'.decRef (frameOf (c.mem pt n))).ptePtr (Machine.virtOf k n) = (s, n) := by
      have hrec' : frameOf (c'.mem c'.cr3 1023) = c'.cr3 := by rw [hdir, hrec, hcr3]
      have hframe : frameOf (c'.mem c'.cr3 k) = s := by rw [hdir, hs]
      rw [← hframe]
      exact ptePtr_virtOf (m := c'.decRef (frameOf (c.mem pt n))) hrec' k (by omega)
    have hword' : (c'.decRef (frameOf (c.mem pt n))).mem pt n = c.mem pt n := hword n
    rw [undoPage, hword, dropShared_succ] at *
    have hlast : ∀ x, x < n+1 ↔ x < n ∨ x = n := by omega
    cases hp : present (c.mem pt n) with
    | false =>
      rw [hp, if_neg (by decide)] at hc''
      subst hc''
      refine ⟨hcr3, by rw [hpmm, if_neg (by decide)], fun f x => ?_⟩
      rw [hmem]
      by_cases hx : x = n
      · rw [if_neg fun hh => by omega, if_neg fun hh => by simp [hx, hp] at hh]
      · simp only [hlast, hx, or_false]
    | true =>
      rw [hp, if_pos rfl] at hc''
      dsimp only at hc''
      rw [hword', hptr] at hc''
      rw [if_pos rfl, ← hpmm, ← decRef_eq]
      cases hw : cow (c.mem pt n) with
      | false =>
        rw [hw, if_neg (by decide)] at hc''
        subst hc''
        refine ⟨hcr3, rfl, fun f x => ?_⟩
        change c'.mem f x = _
        rw [hmem]
        by_cases hx : x = n
        · rw [if_neg fun hh => by omega, if_neg fun hh => by simp [hx, hw] at hh]
        · simp only [hlast, hx, or_false]
      | true =>
        rw [hw, if_pos rfl] at hc''
        subst hc''
        refine ⟨hcr3, rfl, fun f x => ?_⟩
        rw [write_mem]
        change (if f = s ∧ x = n then _ else c'.mem f x) = _
        by_cases hx : x = n
        · by_cases hf : f = s
          · rw [if_pos ⟨hf, hx⟩, if_pos ⟨hf, by omega, by rw [hx]; exact ⟨hp, hw⟩⟩, hx]
          · rw [if_neg fun hh => hf hh.1, if_neg fun hh => hf hh.1, hmem,
              if_neg fun hh => hf hh.1]
        · rw [if_neg fun hh => hx hh.2, hmem]
          simp only [hlast, hx, or_false]

theorem undoTable_none (h : tableAt c nd k = none) (hk : k < 1024) : c.undoTable nd k = c := by
  unfold Machine.undoTable
  by_cases h3 : k = 1023
  · rw [if_pos h3]
  · rw [if_neg h3]
    cases hp : present (c.mem nd k) with
    | false => rfl
    | true =>
      cases hu : user (c.mem nd k) with
      | false => rfl
      | true =>
        rw [tableAt_of (by omega) hp hu] at h
        exact absurd h (by simp)

theorem undoTable_some (h : tableAt c nd k = some pt) :
    c.undoTable nd k = ((List.range 1024).foldl (undoPage k pt) c).freeFrame pt := by
  obtain ⟨hk, hp, hu, rfl⟩ := tableAt_some h
  unfold Machine.undoTable
  rw [if_neg (by omega), hp, hu]
  rfl

/-- What the child has of a page tells what the parent had. -/
theorem undone_inherited (w : ℕ) :
    (if present (inherited w) = true ∧ cow (inherited w) = true then
      entry (frameOf (inherited w)) 7 else cloned w) = undone w := by
  unfold undone
  cases hp : present w with
  | false =>
    have hi : present (inherited w) = false := (present_inherited w).trans hp
    rw [hi]
    simp
  | true =>
    have hi : inherited w = cloned w := if_pos hp
    rw [hi, present_cloned, hp, frameOf_cloned]
    simp

theorem tablePages_inherited {words words' : ℕ → ℕ}
    (h : ∀ j < 1024, words' j = inherited (words j)) (f : ℕ) :
    tablePages words' f 1024 = tablePages words f 1024 := by
  refine List.countP_congr fun j hj => ?_
  rw [h j (List.mem_range.mp hj), present_inherited]
  cases hp : present (words j) with
  | false => rfl
  | true =>
    have hi : inherited (words j) = cloned (words j) := if_pos hp
    rw [hi, frameOf_cloned]

theorem undone_start (h : Made m nd i c₀) : Undone m nd i 0 c₀ c₀ := by
  have hzero : ∀ f, pagesOf m f 0 = 0 := fun _ => rfl
  refine ⟨h.cr3, h.dir, fun _ => rfl, fun _ _ _ _ => rfl, fun l s _ j _ => ?_, made_maxFrames h,
    fun f hf => h.taken f ?_, fun l hl => absurd hl (Nat.not_lt_zero l), fun f hf => ?_,
    fun f hf _ => (h.others f hf).1⟩
  · rw [if_neg (Nat.not_lt_zero l)]
  · rcases hf with he | ⟨l, -, hl, hs, he⟩
    · exact Or.inl he
    · exact Or.inr ⟨l, hl, hs, he⟩
  · rw [hzero, (h.others f hf).2]
    exact (ite_self _).symm

theorem undone_skip (hu : Undone m nd i k c₀ c) (ht : tableAt m m.cr3 k = none) :
    Undone m nd i (k+1) c₀ c := by
  have hne : ∀ l, (tableAt m m.cr3 l).isSome = true → l ≠ k := fun l hs he => by
    rw [he, ht] at hs
    exact absurd hs (by decide)
  have hpages : ∀ f, pagesOf m f (k+1) = pagesOf m f k := fun f => by
    rw [pagesOf, ht]
    rfl
  refine ⟨hu.cr3, hu.dir, hu.newDir, hu.copies, fun l s hs j hj => ?_, hu.maxFrames,
    fun f hf => hu.taken f ?_, fun l hl hs => hu.freed l ?_ hs, fun f hf => ?_, fun f hf => ?_⟩
  · have hlk := hne l (by rw [hs]; rfl)
    have hiff : l < k+1 ↔ l < k := by omega
    rw [hu.parent l s hs j hj]
    simp only [hiff]
  · rcases hf with he | ⟨l, hl, hli, hs, he⟩
    · exact Or.inl he
    · exact Or.inr ⟨l, by omega, hli, hs, he⟩
  · have hlk := hne l hs
    omega
  · rw [hpages]
    exact hu.counts f hf
  · rw [hpages]
    exact hu.bits f hf

/-- The machine after the inner loop of the rollback over table `pt` of the child. -/
structure Dropped (c : Machine) (s pt : ℕ) (c' : Machine) : Prop where
  cr3 : c'.cr3 = c.cr3
  pmm : c'.pmm = dropShared c.pmm (c.mem pt) 1024
  mem : ∀ f x, c'.mem f x =
    if f = s ∧ x < 1024 ∧ present (c.mem pt x) = true ∧ cow (c.mem pt x) = true then
      entry (frameOf (c.mem pt x)) 7 else c.mem f x

/-- One table of the child goes, and its pages are counted down. -/
theorem undone_dropped (hm : Parent m) (h : Made m nd i c₀) (hu : Undone m nd i k c₀ c) (hk : k < i)
    (hs : tableAt m m.cr3 k = some s) {c' : Machine}
    (hd : Dropped c s (frameOf (c₀.mem nd k)) c') :
    Undone m nd i (k+1) c₀ (c'.freeFrame (frameOf (c₀.mem nd k))) := by
  have hsome : (tableAt m m.cr3 k).isSome = true := by rw [hs]; rfl
  obtain ⟨hpfree, hpnd⟩ := h.freshTables k hk hsome
  have hapart := h.apart
  have hcopies := h.copies k hk s hs
  have hcopy := hu.copies k hk hsome
  have hfree := taken_free h (Or.inr ⟨k, hk, hsome, rfl⟩)
  have hnow := hu.taken _ (Or.inr ⟨k, le_rfl, hk, hsome, rfl⟩)
  obtain ⟨hcr3, hpmm, hmem⟩ := hd
  generalize hpt : frameOf (c₀.mem nd k) = pt at *
  obtain ⟨hsused, hsd⟩ := hm.tables k s hs
  have hwords : ∀ j < 1024, c.mem pt j = inherited (m.mem s j) := fun j hj => by
    rw [hcopy, hcopies j hj]
  obtain ⟨hmax, hdrop⟩ := dropShared_spec c.pmm (c.mem pt) 1024
  rw [← hpmm, hu.maxFrames] at hmax
  simp only [← hpmm, hu.maxFrames, tablePages_inherited hwords] at hdrop
  have hmem' : ∀ f, f ≠ s → ∀ x, (c'.freeFrame pt).mem f x = c.mem f x := fun f hf x => by
    change c'.mem f x = _
    rw [hmem, if_neg fun hh => hf hh.1]
  have hsame : ∀ f, f ≠ pt → Same c'.pmm (c'.freeFrame pt).pmm f := fun f hf => freeFrame_same _ hf
  -- frames that were free at the start are in no page of the table
  have hkeep : ∀ f, Free m.pmm f → c'.pmm.memoryBitmap f = c.pmm.memoryBitmap f ∧
      c'.pmm.refcounts f = c.pmm.refcounts f := by
    intro f hf
    have hzero := free_unshared hm hs hf
    obtain ⟨hcount, hbit⟩ := hdrop f
    rw [hzero] at hcount hbit
    exact ⟨hbit fun _ => Or.inr rfl, by rw [hcount, Nat.sub_zero]; exact ite_self _⟩
  have hpages : ∀ f, pagesOf m f (k+1) = pagesOf m f k+tablePages (m.mem s) f 1024 := fun f => by
    rw [pagesOf, hs]
  have hnds : nd ≠ s := fun he => by
    have hbit := h.freshDir.bit
    rw [he, hsused] at hbit
    exact absurd hbit (by decide)
  refine ⟨hcr3.trans hu.cr3, fun l => ?_, fun l => ?_, fun l hl hls j => ?_,
    fun l s' hs' j hj => ?_, ?_, fun f hf => ?_, fun l hl hls => ?_, fun f hf => ?_, fun f hf => ?_⟩
  · rw [hmem' _ hsd.symm, hu.dir]
  · rw [hmem' _ hnds, hu.newDir]
  · have hne : frameOf (c₀.mem nd l) ≠ s := fun he => by
      have hbit := (h.freshTables l hl hls).1.bit
      rw [he, hsused] at hbit
      exact absurd hbit (by decide)
    rw [hmem' _ hne]
    exact hu.copies l hl hls j
  · by_cases hlk : l = k
    · have hss : s' = s := by
        rw [hlk, hs] at hs'
        exact (Option.some.inj hs').symm
      have hold := hu.parent k s hs j hj
      rw [if_neg (Nat.lt_irrefl k), h.parent k s hs j hj, if_pos hk] at hold
      rw [hss, if_pos (by omega), ← undone_inherited]
      change c'.mem s j = _
      rw [hmem, hwords j hj, hold]
      simp [hj]
    · have hne : s' ≠ s := fun he => hlk (hm.distinct l k s (he ▸ hs') hs)
      have hiff : l < k+1 ↔ l < k := by omega
      rw [hmem' _ hne, hu.parent l s' hs' j hj]
      simp only [hiff]
  · change (c'.pmm.freeFrame pt).maxFrames = _
    rw [freeFrame_maxFrames, hmax]
  · have hne : f ≠ pt := by
      rintro rfl
      rcases hf with he | ⟨l, hl, hli, hls, he⟩
      · exact hpnd he
      · have := hapart l hli k hk hls hsome (by rw [he, hpt])
        omega
    have hft : Taken m nd i c₀ f := by
      rcases hf with he | ⟨l, -, hli, hls, he⟩
      · exact Or.inl he
      · exact Or.inr ⟨l, hli, hls, he⟩
    have hold : c.pmm.memoryBitmap f = true ∧ c.pmm.refcounts f = 1 := by
      refine hu.taken f (hf.imp_right ?_)
      rintro ⟨l, hl, hl'⟩
      exact ⟨l, by omega, hl'⟩
    obtain ⟨hbit, hcount⟩ := hkeep f (taken_free h hft)
    rw [(hsame f hne).1, (hsame f hne).2, hbit, hcount]
    exact hold
  · by_cases hlk : l = k
    · obtain ⟨hbit, hcount⟩ := hkeep pt hfree
      rw [hlk, hpt]
      exact freeFrame_last c'.pmm (by rw [hmax]; exact hfree.bound) (by rw [hcount, hnow.2])
    · have hli : l < i := by omega
      have hne : frameOf (c₀.mem nd l) ≠ pt := fun he =>
        hlk (hapart l hli k hk hls hsome (by rw [he, hpt]))
      obtain ⟨hbit, hcount⟩ := hkeep _ (h.freshTables l hli hls).1
      rw [(hsame _ hne).1, (hsame _ hne).2, hbit, hcount]
      exact hu.freed l (by omega) hls
  · have hne : f ≠ pt := fun he => hf (Or.inr ⟨k, hk, hsome, hpt.trans he.symm⟩)
    rw [(hsame f hne).2, (hdrop f).1, hu.counts f hf, hpages]
    split_ifs
    · omega
    · rfl
  · intro hlow
    have hne : f ≠ pt := fun he => hf (Or.inr ⟨k, hk, hsome, hpt.trans he.symm⟩)
    rw [hpages] at hlow
    rw [(hsame f hne).1, (hdrop f).2 fun hlt => ?_, hu.bits f hf fun hlt => ?_]
    · have := hlow hlt
      omega
    · have := hlow hlt
      rw [hu.counts f hf, if_pos hlt]
      omega

theorem undone_table (hm : Parent m) (h : Made m nd i c₀) (hu : Undone m nd i k c₀ c) (hk : k < i)
    (hs : tableAt m m.cr3 k = some s) : Undone m nd i (k+1) c₀ (c.undoTable nd k) := by
  have hsome : (tableAt m m.cr3 k).isSome = true := by rw [hs]; rfl
  have hfree := (h.freshTables k hk hsome).1
  have hchild : tableAt c nd k = some (frameOf (c₀.mem nd k)) := by
    have hc₀ := (h.child k).mpr ⟨hk, hsome⟩
    obtain ⟨q, hq⟩ := Option.isSome_iff_exists.mp hc₀
    rw [tableAt_congr (hu.newDir k), hq, (tableAt_some hq).2.2.2]
  obtain ⟨hsused, hsd⟩ := hm.tables k s hs
  have hps : frameOf (c₀.mem nd k) ≠ s := fun he => by
    rw [← he, hfree.bit] at hsused
    exact absurd hsused (by decide)
  have hrec : frameOf (c.mem c.cr3 1023) = c.cr3 := by rw [hu.cr3, hu.dir, hm.recursive]
  have hframe : frameOf (c.mem c.cr3 k) = s := by
    rw [hu.cr3, hu.dir]
    exact (tableAt_some hs).2.2.2
  rw [undoTable_some hchild]
  obtain ⟨hcr3, hpmm, hmem⟩ := undoPages_spec hrec hframe (by rw [hu.cr3]; exact hsd) hps 1024 le_rfl
    _ rfl
  exact undone_dropped hm h hu hk hs ⟨hcr3, hpmm, hmem⟩

theorem undone_run (hm : Parent m) (h : Made m nd i c₀) (hi : i ≤ 1024) (n : ℕ) (hn : n ≤ i) :
    Undone m nd i n c₀ ((List.range n).foldl (fun m l => m.undoTable nd l) c₀) := by
  refine foldl_range (P := fun k c => Undone m nd i k c₀ c) (undone_start h) n fun k hk c hu => ?_
  cases ht : tableAt m m.cr3 k with
  | none =>
    have hnone : tableAt c₀ nd k = none := by
      have hno : (tableAt c₀ nd k).isSome ≠ true := fun hs => by
        have hin := ((h.child k).mp hs).2
        rw [ht] at hin
        exact absurd hin (by decide)
      simpa using hno
    rw [undoTable_none ((tableAt_congr (hu.newDir k)).trans hnone) (by omega)]
    exact undone_skip hu ht
  | some s => exact undone_table hm h hu (by omega) ht

end Undoing

/-- What a fork that fails at entry `i` leaves. -/
structure RolledBack (m : Machine) (i : ℕ) (m' : Machine) : Prop where
  pages : ∀ n, pteAt m' m.cr3 n =
    if n/1024 < i then (pteAt m m.cr3 n).map undone else pteAt m m.cr3 n
  refcounts : ∀ f, m'.pmm.refcounts f =
    if f < m.pmm.maxFrames then raised m f i-pagesOf m f i else m.pmm.refcounts f
  bits : ∀ f, (f < m.pmm.maxFrames → pagesOf m f i < raised m f i ∨ pagesOf m f i = 0) →
    m'.pmm.memoryBitmap f = m.pmm.memoryBitmap f

section Failure

variable {m c : Machine} {nd i : ℕ}

theorem tablesBelow_mono {j : ℕ} (h : i ≤ j) : tablesBelow m i ≤ tablesBelow m j := by
  induction j with
  | zero => rw [Nat.le_zero.mp h]
  | succ j ih =>
    by_cases hij : i = j+1
    · rw [hij]
    · exact le_trans (ih (by omega)) (Nat.le_add_right _ _)

/-- A table whose copy can be allocated is passed. -/
theorem failsAt_gives (h : FailsAt m i) {j : ℕ} (hj : i < j) :
    ¬ Gives m.pmm (tablesBelow m j+1) := fun hg => by
  obtain ⟨s, hs⟩ := Option.isSome_iff_exists.mp h.2.1
  have hle := tablesBelow_mono (m := m) (show i+1 ≤ j from hj)
  rw [tablesBelow_some hs] at hle
  exact h.2.2.2 (gives_mono hg (by omega))

theorem failsAt_unique (h : FailsAt m i) {j : ℕ} (h' : FailsAt m j) : i = j := by
  rcases Nat.lt_trichotomy i j with hlt | heq | hgt
  · exact absurd h'.2.2.1 (failsAt_gives h hlt)
  · exact heq
  · exact absurd h.2.2.1 (failsAt_gives h' hgt)

theorem free_pagesOf (hm : Parent m) {f : ℕ} (hf : Free m.pmm f) (i : ℕ) : pagesOf m f i = 0 := by
  induction i with
  | zero => rfl
  | succ i ih =>
    rw [pagesOf, ih]
    cases ht : tableAt m m.cr3 i with
    | none => rfl
    | some s => rw [Nat.zero_add]; exact free_unshared hm ht hf

theorem pagesOf_pos {f : ℕ} (h : 0 < pagesOf m f i) :
    ∃ n w, n/1024 < i ∧ pteAt m m.cr3 n = some w ∧ frameOf w = f := by
  induction i with
  | zero => exact absurd h (Nat.lt_irrefl 0)
  | succ i ih =>
    rw [pagesOf] at h
    by_cases hold : 0 < pagesOf m f i
    · obtain ⟨n, w, hn, hw⟩ := ih hold
      exact ⟨n, w, by omega, hw⟩
    · cases ht : tableAt m m.cr3 i with
      | none =>
        rw [ht] at h
        exact absurd h hold
      | some s =>
        rw [ht] at h
        have hpos : 0 < tablePages (m.mem s) f 1024 := by
          dsimp only at h
          omega
        obtain ⟨j, hj, hpage⟩ := List.countP_pos_iff.mp hpos
        simp only [Bool.and_eq_true, beq_iff_eq] at hpage
        have hj1024 : j < 1024 := List.mem_range.mp hj
        have h1 : (1024*i+j)/1024 = i := by omega
        have h2 : (1024*i+j)%1024 = j := by omega
        refine ⟨1024*i+j, m.mem s j, by omega, ?_, hpage.2⟩
        rw [pteAt, h1, h2, ht, Option.bind_some, if_pos hpage.1]

theorem present_undone (w : ℕ) : present (undone w) = present w := by
  unfold undone
  split_ifs with h
  · simp only [Bool.and_eq_true] at h
    rw [present_entry _ (by decide), h.1]
    decide
  · exact present_cloned w

/-- Only a page that was copy-on-write is taken for another one. -/
theorem shape_undone {w : ℕ} (h : present w = true) : shape (undone w) = shape w ↔ cow w = false := by
  have hseven : shape (entry (frameOf w) 7) = (frameOf w, true, false) := by
    rw [shape, frameOf_entry _ (by decide), writable_entry _ (by decide), cow_entry _ (by decide)]
    rfl
  unfold undone cloned
  rw [h]
  cases hw : writable w with
  | true =>
    have hcow : cow (entry (frameOf w) 0x205) = true := by
      rw [cow_entry _ (by decide)]
      decide
    simp only [Bool.and_self, if_true, hcow, hseven]
    unfold shape
    rw [hw]
    constructor
    · intro he
      exact (congrArg (fun x => x.2.2) he).symm
    · intro hc
      rw [hc]
  | false =>
    simp only [Bool.and_false, Bool.false_eq_true, if_false, Bool.true_and]
    cases hc : cow w with
    | true =>
      rw [if_pos rfl, hseven]
      simp [shape, hw]
    | false =>
      rw [if_neg (by decide)]
      simp

/-- The end of the rollback, when the directory goes too. -/
theorem rolledBack_of (hm : Parent m) (h : Made m nd i c) {u : Machine}
    (hu : Undone m nd i i c u) : RolledBack m i (u.freeFrame nd) := by
  have hnd := hu.taken nd (Or.inl rfl)
  have hbound : nd < u.pmm.maxFrames := by
    rw [hu.maxFrames]
    exact h.freshDir.bound
  have hlast := freeFrame_last u.pmm hbound hnd.2.le
  have hsame : ∀ f, f ≠ nd → Same u.pmm (u.freeFrame nd).pmm f := fun f hf => freeFrame_same _ hf
  have htaken : ∀ f, Taken m nd i c f → (u.freeFrame nd).pmm.memoryBitmap f = false ∧
      (u.freeFrame nd).pmm.refcounts f = 0 := by
    intro f hf
    by_cases hfn : f = nd
    · rw [hfn]
      exact hlast
    · rcases hf with he | ⟨l, hl, hs, rfl⟩
      · exact absurd he hfn
      · rw [(hsame _ hfn).1, (hsame _ hfn).2]
        exact hu.freed l hl hs
  refine ⟨fun n => ?_, fun f => ?_, fun f hlow => ?_⟩
  · have hmem : (u.freeFrame nd).mem = u.mem := rfl
    have htab : tableAt (u.freeFrame nd) m.cr3 (n/1024) = tableAt m m.cr3 (n/1024) :=
      tableAt_congr (by rw [hmem]; exact hu.dir _)
    unfold pteAt
    rw [htab]
    cases ht : tableAt m m.cr3 (n/1024) with
    | none => simp
    | some s =>
      rw [Option.bind_some, Option.bind_some, hmem, hu.parent _ s ht _ (Nat.mod_lt n (by decide))]
      by_cases hi : n/1024 < i
      · rw [if_pos hi, if_pos hi, present_undone]
        split_ifs <;> rfl
      · rw [if_neg hi, if_neg hi, h.parent _ s ht _ (Nat.mod_lt n (by decide)), if_neg hi]
  · by_cases hf : Taken m nd i c f
    · have hfree := taken_free h hf
      rw [(htaken f hf).2, free_pagesOf hm hfree, if_pos hfree.bound, raised,
        if_pos hfree.bound, free_pagesOf hm hfree, hm.free f hfree]
      rfl
    · rw [(hsame f fun he => hf (Or.inl he)).2, hu.counts f hf]
      split_ifs with hlt
      · rfl
      · exact if_neg hlt
  · by_cases hf : Taken m nd i c f
    · rw [(htaken f hf).1, (taken_free h hf).bit]
    · rw [(hsame f fun he => hf (Or.inl he)).1]
      exact hu.bits f hf hlow

/-- The frames suffice, or not even for the directory, or they run out at a table and the fork is
rolled back from there. -/
theorem cowCloneDirectory_cases (hm : Parent m) :
    (m.cowCloneDirectory.1 ≠ 0 ∧ ∀ i, ¬ FailsAt m i) ∨
    (m.cowCloneDirectory = (0, m) ∧ ∀ i, ¬ FailsAt m i) ∨
    ∃ i, FailsAt m i ∧ m.cowCloneDirectory.1 = 0 ∧ RolledBack m i m.cowCloneDirectory.2 := by
  rw [Machine.cowCloneDirectory]
  by_cases halloc : m.allocFrame.1 = 0
  · right; left
    have hpmm := alloc_fails hm.null halloc
    have hsame : m.allocFrame.2 = m := by
      change { m with pmm := m.pmm.allocFrame.2 } = m
      rw [hpmm]
    refine ⟨by rw [if_pos halloc, hsame], fun i hf => ?_⟩
    exact gives_mono hf.2.2.1 (show 1 ≤ _ by omega) 0 (by decide) halloc
  · have hstart := made_start hm halloc
    rw [if_neg halloc, List.range_eq_range']
    generalize m.allocFrame.2.clear m.allocFrame.1 = c at hstart
    generalize m.allocFrame.1 = nd at halloc hstart
    rcases cloneEntries_ends hm 1024 0 c rfl hstart with ⟨hdone, hgives⟩ | ⟨i, c', hf, hmade, heq⟩
    · left
      dsimp only
      rw [hdone, if_pos rfl]
      exact ⟨halloc, fun i hf => failsAt_gives hf hf.1 hgives⟩
    · right; right
      refine ⟨i, hf, ?_⟩
      dsimp only
      rw [heq, if_neg Bool.false_ne_true]
      exact ⟨rfl, rolledBack_of hm hmade
        (undone_run hm hmade (Nat.le_of_lt hf.1) i le_rfl)⟩

theorem pteAt_present {d n w : ℕ} (h : pteAt m d n = some w) : present w = true := by
  obtain ⟨-, -, hp, -⟩ := pteAt_some h
  exact hp

theorem restorable_of_unchanged (hm : Parent m) {m' : Machine} (hr : RolledBack m i m')
    (hu : Unchanged m m') : Restorable m i := by
  intro n w hn hw
  have hp := pteAt_present hw
  constructor
  · have hpage := hu.pages n
    rw [hr.pages, if_pos hn, hw] at hpage
    exact (shape_undone hp).mp (Option.some.inj hpage)
  · intro hlt
    have hone := (hm.pages n w hw hlt).2
    have hcount := hu.refcounts (frameOf w)
    rw [hr.refcounts, if_pos hlt, raised, if_pos hlt] at hcount
    omega

theorem unchanged_of_restorable (hm : Parent m) {m' : Machine} (hr : RolledBack m i m')
    (h : Restorable m i) : Unchanged m m' := by
  -- a count that goes up comes down again
  have hcounts : ∀ f, f < m.pmm.maxFrames → pagesOf m f i = 0 ∧ raised m f i = m.pmm.refcounts f ∨
      raised m f i = m.pmm.refcounts f+pagesOf m f i ∧ 0 < m.pmm.refcounts f := by
    intro f hlt
    have hbyte := hm.byte f
    rw [raised, if_pos hlt]
    by_cases hpos : 0 < pagesOf m f i
    · obtain ⟨n, w, hn, hw, rfl⟩ := pagesOf_pos hpos
      have hle := (h n w hn hw).2 hlt
      have hone := (hm.pages n w hw hlt).2
      exact Or.inr ⟨Nat.min_eq_right hle, hone⟩
    · exact Or.inl ⟨by omega, by omega⟩
  refine ⟨fun n => ?_, fun f => ?_, fun f => hr.bits f fun hlt => ?_⟩
  · rw [hr.pages]
    by_cases hn : n/1024 < i
    · rw [if_pos hn]
      cases hw : pteAt m m.cr3 n with
      | none => rfl
      | some w =>
        exact congrArg some ((shape_undone (pteAt_present hw)).mpr (h n w hn hw).1)
    · rw [if_neg hn]
  · rw [hr.refcounts]
    split_ifs with hlt
    · have := hcounts f hlt
      omega
    · rfl
  · have := hcounts f hlt
    omega

end Failure

/-- A fork that fails leaves the parent, the counts and the bitmap as they were exactly if the
tables that were cloned have no copy-on-write page and no count reached 255. -/
theorem failed_fork_unchanged (m : Machine) (hm : Parent m) :
    (m.cowCloneDirectory.1 = 0 → Unchanged m m.cowCloneDirectory.2) ↔
    ∀ i, FailsAt m i → Restorable m i := by
  rcases cowCloneDirectory_cases hm with ⟨h0, hno⟩ | ⟨heq, hno⟩ | ⟨i, hf, h0, hr⟩
  · exact ⟨fun _ i hi => absurd hi (hno i), fun _ hz => absurd hz h0⟩
  · rw [heq]
    exact ⟨fun _ i hi => absurd hi (hno i), fun _ _ => ⟨fun _ => rfl, fun _ => rfl, fun _ => rfl⟩⟩
  · constructor
    · intro h j hj
      rw [← failsAt_unique hf hj]
      exact restorable_of_unchanged hm hr (h h0)
    · intro h _
      exact unchanged_of_restorable hm hr (h i hf)

/-- A directory with two tables and one user page with entry `w`, in frame 5. Two frames are
left, enough for the directory of the child and one table. -/
def twoTables (w count : ℕ) : Machine where
  mem f k := if f = 1 then (if k = 0 then entry 2 7 else if k = 1 then entry 3 7
      else if k = 1023 then entry 1 3 else 0)
    else if f = 2 then (if k = 0 then w else 0) else 0
  pmm := { memoryBitmap := fun f => decide (f < 30), maxFrames := 32, usedFrames := 30,
           refcounts := fun f => if f = 5 then count else if f < 30 then 1 else 0 }
  cr3 := 1
  kernelDirectory := 0

section Example

variable {w count : ℕ}

theorem twoTables_tableAt {i s : ℕ} (h : tableAt (twoTables w count) 1 i = some s) :
    i = 0 ∧ s = 2 ∨ i = 1 ∧ s = 3 := by
  obtain ⟨hi, hp, hu, hs⟩ := tableAt_some h
  by_cases h0 : i = 0
  · subst h0
    exact Or.inl ⟨rfl, hs.symm.trans (frameOf_entry 2 (by decide))⟩
  · by_cases h1 : i = 1
    · subst h1
      exact Or.inr ⟨rfl, hs.symm.trans (frameOf_entry 3 (by decide))⟩
    · have hzero : (twoTables w count).mem 1 i = 0 := by
        simp [twoTables, h0, h1, show i ≠ 1023 by omega]
      rw [hzero] at hp
      exact absurd hp (by decide)

theorem twoTables_pteAt {n v : ℕ} (h : pteAt (twoTables w count) 1 n = some v) :
    n = 0 ∧ v = w := by
  obtain ⟨t, ht, hp, hv⟩ := pteAt_some h
  have hzero : ∀ f k, f ≠ 1 → (f = 2 → k ≠ 0) → (twoTables w count).mem f k = 0 := by
    intro f k hf hk
    simp only [twoTables, if_neg hf]
    split_ifs with h2 h3
    · exact absurd h3 (hk h2)
    · rfl
    · rfl
  rcases twoTables_tableAt ht with ⟨h0, rfl⟩ | ⟨h1, rfl⟩
  · by_cases hn : n%1024 = 0
    · refine ⟨by omega, ?_⟩
      rw [← hv, hn]
      rfl
    · rw [hzero 2 _ (by decide) fun _ => hn] at hv
      rw [← hv] at hp
      exact absurd hp (by decide)
  · rw [hzero 3 _ (by decide) fun h => absurd h (by decide)] at hv
    rw [← hv] at hp
    exact absurd hp (by decide)

theorem twoTables_parent (hw : frameOf w = 5) (h1 : 1 ≤ count) (h255 : count ≤ 255) :
    Parent (twoTables w count) := by
  refine ⟨frameOf_entry 1 (by decide), rfl, rfl, fun i s hs => ?_, fun i j s hi hj => ?_,
    fun n v hv _ => ?_, fun f hf => ?_, fun f => ?_⟩
  · rcases twoTables_tableAt hs with ⟨-, rfl⟩ | ⟨-, rfl⟩
    · exact ⟨rfl, (by decide : 2 ≠ 1)⟩
    · exact ⟨rfl, (by decide : 3 ≠ 1)⟩
  · rcases twoTables_tableAt hi with ⟨rfl, rfl⟩ | ⟨rfl, rfl⟩ <;>
      rcases twoTables_tableAt hj with ⟨rfl, h⟩ | ⟨rfl, h⟩ <;> omega
  · obtain ⟨-, rfl⟩ := twoTables_pteAt hv
    rw [hw]
    exact ⟨rfl, h1⟩
  · have hbit : ¬ f < 30 := of_decide_eq_false hf.bit
    have hne : f ≠ 5 := by omega
    simp [twoTables, hbit, hne]
  · simp only [twoTables]
    split_ifs <;> omega

end Example

/-- A page that only the parent has comes back writable. -/
theorem failed_fork_unchanged_writable : (twoTables (entry 5 7) 1).cowCloneDirectory.1 = 0 ∧
    Unchanged (twoTables (entry 5 7) 1) (twoTables (entry 5 7) 1).cowCloneDirectory.2 := by
  have hm : Parent (twoTables (entry 5 7) 1) := twoTables_parent (by decide) le_rfl (by decide)
  have hfails : FailsAt (twoTables (entry 5 7) 1) 1 :=
    ⟨by decide, by decide, by decide, by decide⟩
  have hzero : (twoTables (entry 5 7) 1).cowCloneDirectory.1 = 0 := by
    rcases cowCloneDirectory_cases hm with ⟨-, hno⟩ | ⟨-, hno⟩ | ⟨i, -, h0, -⟩
    · exact absurd hfails (hno 1)
    · exact absurd hfails (hno 1)
    · exact h0
  refine ⟨hzero, (failed_fork_unchanged (twoTables (entry 5 7) 1) hm).mpr (fun i hi => ?_) hzero⟩
  rw [failsAt_unique hi hfails]
  intro n v hn hv
  obtain ⟨-, rfl⟩ := twoTables_pteAt hv
  rw [frameOf_entry 5 (by decide)]
  exact ⟨by decide, fun _ => by decide +kernel⟩

/-- A page that was shared by an earlier fork becomes writable on both sides. -/
theorem shared_page_writable : Parent (twoTables (entry 5 0x205) 2) ∧
    (twoTables (entry 5 0x205) 2).cowCloneDirectory.1 = 0 ∧
    pteAt (twoTables (entry 5 0x205) 2) 1 0 = some (entry 5 0x205) ∧
    pteAt (twoTables (entry 5 0x205) 2).cowCloneDirectory.2 1 0 = some (entry 5 7) ∧
    ¬ Unchanged (twoTables (entry 5 0x205) 2) (twoTables (entry 5 0x205) 2).cowCloneDirectory.2 := by
  have hm : Parent (twoTables (entry 5 0x205) 2) :=
    twoTables_parent (by decide) (by decide) (by decide)
  have hfails : FailsAt (twoTables (entry 5 0x205) 2) 1 :=
    ⟨by decide, by decide, by decide, by decide⟩
  have hold : pteAt (twoTables (entry 5 0x205) 2) 1 0 = some (entry 5 0x205) := by decide
  rcases cowCloneDirectory_cases hm with ⟨-, hno⟩ | ⟨-, hno⟩ | ⟨i, hf, h0, hr⟩
  · exact absurd hfails (hno 1)
  · exact absurd hfails (hno 1)
  · rw [failsAt_unique hf hfails] at hr
    refine ⟨hm, h0, hold, ?_, fun hu => ?_⟩
    · have hpage := hr.pages 0
      exact hpage.trans (by decide)
    · have hcow := (restorable_of_unchanged hm hr hu 0 _ (by decide) hold).1
      exact absurd hcow (by decide)

end Vlsmc.ForkRollback
