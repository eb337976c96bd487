import Vlsmc.PhysicalMemory

/-!
# Counts that cover the holders

A weaker account of the frames than an exact ledger: slots may hold frames that
the manager does not know, several slots of a process may hold the same frame,
and a frame may be forgotten without being given back. As long as the count of a
frame is no smaller than the number of its holders, a frame in use is never free.
-/

set_option autoImplicit false

namespace Vlsmc.FrameHolders
open Vlsmc.Words Vlsmc.SharedFrames Vlsmc.PhysicalMemory

variable {κ : Type*} [DecidableEq κ]

/-- The slots of `M` hold frames, and the frames in `own` belong to the kernel. -/
structure Covered (p : Pmm) (M : κ → Option ℕ) (own : ℕ → Prop) : Prop where
  held : ∀ x f, M x = some f → f < p.maxFrames → p.memoryBitmap f = true
  counted : ∀ f, f < p.maxFrames → ¬own f → (holders M f).ncard ≤ p.refcounts f
  owned : ∀ t, own t → p.memoryBitmap t = true
  apart : ∀ x f, M x = some f → ¬own f
  finite : ∀ f, (holders M f).Finite

variable {p : Pmm} {M : κ → Option ℕ} {own : ℕ → Prop} {x y : κ} {f t : ℕ}

omit [DecidableEq κ] in
theorem covered_congr (h : Covered p M own) {M' : κ → Option ℕ} {own' : ℕ → Prop}
    (hM : ∀ x, M' x = M x) (hown : ∀ t, own' t ↔ own t) : Covered p M' own' := by
  have h1 : M' = M := funext hM
  have h2 : own' = own := funext fun t => propext (hown t)
  rwa [h1, h2]

omit [DecidableEq κ] in
/-- A frame that the manager hands out is in no slot. -/
theorem covered_fresh (h : Covered p M own) (hlt : f < p.maxFrames)
    (hf : p.memoryBitmap f = false) : (∀ x, M x ≠ some f) ∧ ¬own f := by
  constructor
  · intro x hx
    rw [h.held x f hx hlt] at hf
    exact absurd hf (by simp)
  · intro ho
    rw [h.owned f ho] at hf
    exact absurd hf (by simp)

/-- A fresh frame of the kernel. -/
structure Fresh (p p' : Pmm) (M : κ → Option ℕ) (own : ℕ → Prop) (t : ℕ) : Prop where
  free : ∀ x, M x ≠ some t
  unowned : ¬own t
  inside : t < p.maxFrames
  maxFrames : p'.maxFrames = p.maxFrames
  count : p'.refcounts t = 1
  others : ∀ f, f ≠ t → p'.refcounts f = p.refcounts f

omit [DecidableEq κ] in
theorem covered_alloc (h : Covered p M own) (h0 : p.allocFrame.1 ≠ 0) :
    Covered p.allocFrame.2 M (fun t => own t ∨ t = p.allocFrame.1) ∧
      Fresh p p.allocFrame.2 M own p.allocFrame.1 := by
  rcases allocFrame_cases p with h1 | ⟨f, hlt, hbit, hfst, hmax, hset, hone, hsame⟩
  · exact absurd h1 h0
  · rw [hfst]
    obtain ⟨hfree, hown⟩ := covered_fresh h hlt hbit
    refine ⟨⟨fun x g hx hg => ?_, fun g hg ho => ?_, fun t ht => ?_, fun x g hx ho => ?_, h.finite⟩,
      hfree, hown, hlt, hmax, hone, fun g hg => (hsame g hg).2⟩
    · rw [hmax] at hg
      rw [(hsame g fun he => hfree x (he ▸ hx)).1]
      exact h.held x g hx hg
    · rw [hmax] at hg
      rw [not_or] at ho
      rw [(hsame g ho.2).2]
      exact h.counted g hg ho.1
    · by_cases htf : t = f
      · rw [htf]
        exact hset
      · rw [(hsame t htf).1]
        exact h.owned t (ht.resolve_right htf)
    · rcases ho with ho | ho
      · exact h.apart x g hx ho
      · exact hfree x (ho ▸ hx)

/-- Frame `f` is in use and has a reference to spare. -/
structure Spare (p : Pmm) (M : κ → Option ℕ) (own : ℕ → Prop) (f : ℕ) : Prop where
  unowned : ¬own f
  room : f < p.maxFrames → p.memoryBitmap f = true ∧ (holders M f).ncard+1 ≤ p.refcounts f

omit [DecidableEq κ] in
/-- A frame may be handed out and left to nobody. -/
theorem covered_allocFrame (h : Covered p M own) : Covered p.allocFrame.2 M own := by
  rcases allocFrame_eq p with heq | ⟨f, hlt, hbit, heq⟩
  · rw [heq]
    exact h
  · obtain ⟨hmax, -, -, hsame⟩ := occupy_spec p f (u32 (p.usedFrames+1))
    obtain ⟨hfree, hown⟩ := covered_fresh h hlt hbit
    have hempty : holders M f = ∅ := Set.eq_empty_of_forall_notMem fun x hx => hfree x hx
    rw [heq]
    refine ⟨fun x g hx hg => ?_, fun g hg ho => ?_, fun t ht => ?_, h.apart, h.finite⟩
    · rw [hmax] at hg
      have hgf : g ≠ f := fun he => hfree x (he ▸ hx)
      rw [(hsame g hgf).1]
      exact h.held x g hx hg
    · rw [hmax] at hg
      by_cases hgf : g = f
      · rw [hgf, hempty, Set.ncard_empty]
        exact Nat.zero_le _
      · rw [(hsame g hgf).2]
        exact h.counted g hg ho
    · have htf : t ≠ f := fun he => hown (he ▸ ht)
      rw [(hsame t htf).1]
      exact h.owned t ht

omit [DecidableEq κ] in
/-- A frame that was handed out. -/
theorem spare_allocFrame (h : Covered p M own) (h0 : p.allocFrame.1 ≠ 0) :
    Spare p.allocFrame.2 M own p.allocFrame.1 := by
  rcases allocFrame_cases p with h1 | ⟨f, hlt, hbit, hfst, hmax, hset, hone, -⟩
  · exact absurd h1 h0
  · rw [hfst]
    obtain ⟨hfree, hown⟩ := covered_fresh h hlt hbit
    have hempty : holders M f = ∅ := Set.eq_empty_of_forall_notMem fun x hx => hfree x hx
    exact ⟨hown, fun _ => ⟨hset, by rw [hempty, Set.ncard_empty, hone]⟩⟩

omit [DecidableEq κ] in
/-- The frame stays spare when others are handed out. -/
theorem spare_alloc (h : Spare p M own f) (h0 : p.allocFrame.1 ≠ 0) :
    Spare p.allocFrame.2 M (fun t => own t ∨ t = p.allocFrame.1) f := by
  rcases allocFrame_cases p with h1 | ⟨g, hlt, hbit, hfst, hmax, -, -, hsame⟩
  · exact absurd h1 h0
  · have hne : f ≠ g := by
      rintro rfl
      rw [(h.room hlt).1] at hbit
      exact absurd hbit (by simp)
    rw [hfst]
    refine ⟨fun ho => ho.elim h.unowned hne, fun hf => ?_⟩
    rw [(hsame f hne).1, (hsame f hne).2]
    exact h.room (hmax ▸ hf)

omit [DecidableEq κ] in
/-- The kernel gives one of its frames back. -/
theorem covered_release (h : Covered p M own) (ht : own t) :
    Covered (p.freeFrame t) M fun s => own s ∧ s ≠ t := by
  have hempty : holders M t = ∅ :=
    Set.eq_empty_of_forall_notMem fun x hx => h.apart x t hx ht
  refine ⟨fun x g hx hg => ?_, fun g hg ho => ?_, fun s hs => ?_, fun x g hx ho => h.apart x g hx ho.1,
    h.finite⟩
  · have hgt : g ≠ t := fun he => h.apart x g hx (he ▸ ht)
    rw [freeFrame_maxFrames] at hg
    rw [(freeFrame_same p hgt).1]
    exact h.held x g hx hg
  · rw [freeFrame_maxFrames] at hg
    by_cases hgt : g = t
    · rw [hgt, hempty, Set.ncard_empty]
      exact Nat.zero_le _
    · rw [(freeFrame_same p hgt).2]
      exact h.counted g hg fun ho' => ho ⟨ho', hgt⟩
  · rw [(freeFrame_same p hs.2).1]
    exact h.owned s hs.1

theorem holders_setSlot_subset (M : κ → Option ℕ) (x : κ) (o : Option ℕ) {g : ℕ}
    (hg : o ≠ some g) : holders (setSlot M x o) g ⊆ holders M g := by
  intro y hy
  by_cases hyx : y = x
  · have : setSlot M x o y = some g := hy
    rw [hyx, setSlot_same] at this
    exact absurd this hg
  · have : setSlot M x o y = some g := hy
    rwa [setSlot_ne _ _ hyx] at this

/-- A slot forgets its frame. -/
theorem covered_forget (h : Covered p M own) (x : κ) : Covered p (setSlot M x none) own := by
  have hsub : ∀ g, holders (setSlot M x none) g ⊆ holders M g := fun g =>
    holders_setSlot_subset M x none (by simp)
  refine ⟨fun y g hy hg => h.held y g (hsub g hy) hg, fun g hg ho => ?_, h.owned,
    fun y g hy => h.apart y g (hsub g hy), fun g => (h.finite g).subset (hsub g)⟩
  exact (Set.ncard_le_ncard (hsub g) (h.finite g)).trans (h.counted g hg ho)

/-- A slot takes another frame, with a count to match. -/
theorem covered_take (h : Covered p M own) {p' : Pmm} (hmax : p'.maxFrames = p.maxFrames)
    (hother : ∀ g, g ≠ f → p'.memoryBitmap g = p.memoryBitmap g ∧ p'.refcounts g = p.refcounts g)
    (hx : M x = none) (hown : ¬own f)
    (hf : f < p.maxFrames → p'.memoryBitmap f = true ∧ (holders M f).ncard+1 ≤ p'.refcounts f) :
    Covered p' (setSlot M x (some f)) own := by
  have hcases : ∀ z g, setSlot M x (some f) z = some g → g = f ∨ g ≠ f ∧ M z = some g := by
    intro z g hz
    by_cases hzx : z = x
    · rw [hzx, setSlot_same] at hz
      exact Or.inl (Option.some.inj hz).symm
    · rw [setSlot_ne _ _ hzx] at hz
      by_cases hgf : g = f
      · exact Or.inl hgf
      · exact Or.inr ⟨hgf, hz⟩
  refine ⟨fun z g hz hg => ?_, fun g hg ho => ?_, fun t ht => ?_, fun z g hz => ?_, fun g => ?_⟩
  · rw [hmax] at hg
    rcases hcases z g hz with rfl | ⟨hgf, hz'⟩
    · exact (hf hg).1
    · rw [(hother g hgf).1]
      exact h.held z g hz' hg
  · rw [hmax] at hg
    by_cases hgf : g = f
    · rw [hgf, ncard_take hx (h.finite f)]
      exact (hf (hgf ▸ hg)).2
    · rw [(hother g hgf).2, holders_take_other hx hgf]
      exact h.counted g hg ho
  · by_cases htf : t = f
    · exact absurd (htf ▸ ht) hown
    · rw [(hother t htf).1]
      exact h.owned t ht
  · rcases hcases z g hz with rfl | ⟨-, hz'⟩
    · exact hown
    · exact h.apart z g hz'
  · by_cases hgf : g = f
    · rw [hgf, holders_take]
      exact (h.finite f).insert x
    · rw [holders_take_other hx hgf]
      exact h.finite g

/-- A spare reference goes into a slot, whatever was there. -/
theorem covered_put (h : Covered p M own) (hf : Spare p M own f) (x : κ) :
    Covered p (setSlot M x (some f)) own := by
  have hempty := covered_forget h x
  rw [← setSlot_setSlot M x none]
  refine covered_take hempty rfl (fun _ _ => ⟨rfl, rfl⟩) (setSlot_same M x none) hf.unowned
    fun hlt => ⟨(hf.room hlt).1, ?_⟩
  have hle : (holders (setSlot M x none) f).ncard ≤ (holders M f).ncard :=
    Set.ncard_le_ncard (holders_setSlot_subset M x none (by simp)) (h.finite f)
  exact (Nat.succ_le_succ hle).trans (hf.room hlt).2

/-- A slot gives its frame back. -/
theorem covered_drop (h : Covered p M own) (hx : M x = some f) :
    Covered (p.freeFrame f) (setSlot M x none) own := by
  have hforget := covered_forget h x
  have hown : ¬own f := h.apart x f hx
  by_cases hlt : f < p.maxFrames
  · have hcount := ncard_drop hx (h.finite f)
    have hle := h.counted f hlt hown
    refine ⟨fun y g hy hg => ?_, fun g hg ho => ?_, fun t ht => ?_, hforget.apart, hforget.finite⟩
    · rw [freeFrame_maxFrames] at hg
      by_cases hgf : g = f
      · subst hgf
        have hpos : 0 < (holders (setSlot M x none) g).ncard :=
          (Set.ncard_pos (hforget.finite g)).mpr ⟨y, hy⟩
        rw [(freeFrame_shared p hlt (by omega)).1]
        exact hforget.held y g hy hg
      · rw [(freeFrame_same p hgf).1]
        exact hforget.held y g hy hg
    · rw [freeFrame_maxFrames] at hg
      by_cases hgf : g = f
      · subst hgf
        by_cases hrc : 1 < p.refcounts g
        · rw [(freeFrame_shared p hlt hrc).2]
          omega
        · omega
      · rw [(freeFrame_same p hgf).2]
        exact hforget.counted g hg ho
    · have htf : t ≠ f := fun he => hown (he ▸ ht)
      rw [(freeFrame_same p htf).1]
      exact h.owned t ht
  · rw [Pmm.freeFrame, if_pos (by omega)]
    exact hforget

/-- A slot gives its frame back and takes a spare one. -/
theorem covered_replace (h : Covered p M own) (hx : M x = some t) (hf : Spare p M own f)
    (hne : f ≠ t) : Covered (p.freeFrame t) (setSlot M x (some f)) own := by
  have hdrop := covered_drop h hx
  rw [← setSlot_setSlot M x none]
  refine covered_put hdrop ⟨hf.unowned, fun hlt => ?_⟩ x
  rw [freeFrame_maxFrames] at hlt
  rw [(freeFrame_same p hne).1, (freeFrame_same p hne).2]
  have hle : (holders (setSlot M x none) f).ncard ≤ (holders M f).ncard :=
    Set.ncard_le_ncard (holders_setSlot_subset M x none (by simp)) (h.finite f)
  exact ⟨(hf.room hlt).1, (Nat.succ_le_succ hle).trans (hf.room hlt).2⟩

omit [DecidableEq κ] in
/-- One reference more does no harm. -/
theorem covered_incRef (h : Covered p M own) (f : ℕ) : Covered (p.incRef f) M own := by
  refine ⟨fun x g hx hg => ?_, fun g hg ho => ?_, fun t ht => ?_, h.apart, h.finite⟩
  · rw [incRef_maxFrames] at hg
    rw [incRef_memoryBitmap]
    exact h.held x g hx hg
  · rw [incRef_maxFrames] at hg
    refine (h.counted g hg ho).trans ?_
    by_cases hgf : g = f
    · unfold Pmm.incRef
      split_ifs
      · rw [hgf, setRefcount_refcounts]
        exact Nat.le_succ _
      · exact le_rfl
    · rw [(incRef_same p hgf).2]
  · rw [incRef_memoryBitmap]
    exact h.owned t ht

/-- One more slot for a frame that is in use. -/
theorem covered_share (h : Covered p M own) (hy : M y = some f) (hx : M x = none)
    (hroom : f < p.maxFrames → p.refcounts f < 255) :
    Covered (p.incRef f) (setSlot M x (some f)) own := by
  refine covered_take h (incRef_maxFrames p f) (fun g hg => incRef_same p hg) hx (h.apart y f hy)
    fun hlt => ?_
  rw [incRef_memoryBitmap, incRef_refcounts p hlt (hroom hlt)]
  exact ⟨h.held y f hy hlt, Nat.succ_le_succ (h.counted f hlt (h.apart y f hy))⟩

end Vlsmc.FrameHolders
