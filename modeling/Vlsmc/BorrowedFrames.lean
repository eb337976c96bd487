import Mathlib.Data.Finset.Card
import Vlsmc.PmmRuns

/-!
# Frames on loan

What the manager has handed out since a given moment, frame by frame. When every frame has
come back, bitmap, counts and number of used frames are what they were.
-/

set_option autoImplicit false

namespace Vlsmc.BorrowedFrames
open Vlsmc.Words Vlsmc.PhysicalMemory Vlsmc.PmmRuns

/-- A manager whose free frames have no references. -/
structure Settled (p : Pmm) : Prop where
  null : p.memoryBitmap 0 = true
  clean : ∀ f < p.maxFrames, p.memoryBitmap f = false → p.refcounts f = 0
  used : p.usedFrames < 4294967296

/-- The frames in `S` are on loan since the manager was `p₀`. -/
structure Borrowed (p₀ p : Pmm) (S : Finset ℕ) : Prop where
  maxFrames : p.maxFrames = p₀.maxFrames
  inside : ∀ f ∈ S, f < p₀.maxFrames
  taken : ∀ f ∈ S, p₀.memoryBitmap f = false ∧ p.memoryBitmap f = true ∧ p.refcounts f = 1
  others : ∀ f ∉ S, Same p₀ p f
  used : p.usedFrames = u32 (p₀.usedFrames+S.card)

variable {p₀ p : Pmm} {S : Finset ℕ} {f : ℕ}

theorem exact_settled {first count : ℕ} {t : Tracked} (h : Exact first count t) : Settled t.pmm := by
  have hmax := h.size.1
  refine ⟨h.outside 0 (by have := h.region; omega) (Or.inl h.region.1), fun f hf hbit => ?_, ?_⟩
  · obtain ⟨-, -, hrefs⟩ := exact_free h hf hbit
    cases hsingle : t.single f with
    | true => rw [h.counts f hsingle, hrefs]
    | false => exact (h.blocks f hf hsingle).1
  · have hle := countSet_le t.pmm.maxFrames t.pmm.memoryBitmap
    rw [h.used]
    omega

theorem borrowed_start (h : Settled p) : Borrowed p p ∅ where
  maxFrames := rfl
  inside := by simp
  taken := by simp
  others := fun _ _ => ⟨rfl, rfl⟩
  used := (u32_of_lt h.used).symm

/-- Everything is back. -/
theorem borrowed_end (h : Settled p₀) (hb : Borrowed p₀ p ∅) :
    p.memoryBitmap = p₀.memoryBitmap ∧ p.refcounts = p₀.refcounts ∧
      p.usedFrames = p₀.usedFrames := by
  have hsame : ∀ f, Same p₀ p f := fun f => hb.others f (Finset.notMem_empty f)
  exact ⟨funext fun f => (hsame f).1, funext fun f => (hsame f).2,
    hb.used.trans (u32_of_lt h.used)⟩

theorem borrowed_null (h : Settled p₀) (hb : Borrowed p₀ p S) : 0 ∉ S := fun hm => by
  have := (hb.taken 0 hm).1
  rw [h.null] at this
  exact absurd this (by decide)

/-- A frame that is marked free is not on loan. -/
theorem borrowed_free_bit (hb : Borrowed p₀ p S) (hbit : p.memoryBitmap f = false) :
    f ∉ S ∧ p₀.memoryBitmap f = false := by
  have hf : f ∉ S := fun hm => by
    rw [(hb.taken f hm).2.1] at hbit
    exact absurd hbit (by decide)
  exact ⟨hf, by rw [← (hb.others f hf).1, hbit]⟩

/-- Either nothing changes, or one more frame is on loan. -/
theorem borrowed_alloc (hs : Settled p₀) (hb : Borrowed p₀ p S) :
    p.allocFrame = (0, p) ∨ p.allocFrame.1 ≠ 0 ∧ p.allocFrame.1 ∉ S ∧
      p.allocFrame.1 < p₀.maxFrames ∧ p₀.memoryBitmap p.allocFrame.1 = false ∧
      Borrowed p₀ p.allocFrame.2 (insert p.allocFrame.1 S) := by
  rcases allocFrame_eq p with heq | ⟨f, hlt, hbit, heq⟩
  · exact Or.inl heq
  · right
    obtain ⟨hf, hbit₀⟩ := borrowed_free_bit hb hbit
    obtain ⟨hmax, hset, hone, hsame⟩ := occupy_spec p f (u32 (p.usedFrames+1))
    have hinside : f < p₀.maxFrames := hb.maxFrames ▸ hlt
    rw [heq]
    refine ⟨?_, hf, hinside, hbit₀, hmax.trans hb.maxFrames, fun g hg => ?_, fun g hg => ?_,
      fun g hg => ?_, ?_⟩
    · rintro rfl
      rw [hs.null] at hbit₀
      exact absurd hbit₀ (by decide)
    · rcases Finset.mem_insert.mp hg with rfl | hg
      · exact hinside
      · exact hb.inside g hg
    · by_cases hgf : g = f
      · rw [hgf]
        exact ⟨hbit₀, hset, hone⟩
      · have hgS := (Finset.mem_insert.mp hg).resolve_left hgf
        rw [(hsame g hgf).1, (hsame g hgf).2]
        exact hb.taken g hgS
    · rw [Finset.mem_insert, not_or] at hg
      have h1 := hsame g hg.1
      have h2 := hb.others g hg.2
      exact ⟨h1.1.trans h2.1, h1.2.trans h2.2⟩
    · change u32 (p.usedFrames+1) = _
      rw [hb.used, Finset.card_insert_of_notMem hf]
      unfold u32
      omega

/-- A frame on loan comes back. -/
theorem borrowed_return (hs : Settled p₀) (hb : Borrowed p₀ p S) (hf : f ∈ S) :
    Borrowed p₀ (p.freeFrame f) (S.erase f) := by
  have hlt : f < p.maxFrames := hb.maxFrames ▸ hb.inside f hf
  obtain ⟨hbit₀, -, hone⟩ := hb.taken f hf
  obtain ⟨hbit, hcount⟩ := freeFrame_last p hlt hone.le
  refine ⟨(freeFrame_maxFrames p f).trans hb.maxFrames,
    fun g hg => hb.inside g (Finset.mem_of_mem_erase hg), fun g hg => ?_, fun g hg => ?_, ?_⟩
  · obtain ⟨hne, hg⟩ := Finset.mem_erase.mp hg
    have h1 := freeFrame_same p hne
    rw [h1.1, h1.2]
    exact hb.taken g hg
  · by_cases hgf : g = f
    · rw [hgf]
      exact ⟨hbit.trans hbit₀.symm, hcount.trans (hs.clean f (hb.inside f hf) hbit₀).symm⟩
    · have h1 := freeFrame_same p hgf
      have h2 := hb.others g fun hm => hg (Finset.mem_erase.mpr ⟨hgf, hm⟩)
      exact ⟨h1.1.trans h2.1, h1.2.trans h2.2⟩
  · have hused : (p.freeFrame f).usedFrames = sub32 p.usedFrames 1 := by
      unfold Pmm.freeFrame
      rw [if_neg (by omega), if_neg (by omega)]
    have hcard := Finset.card_pos.mpr ⟨f, hf⟩
    rw [hused, hb.used, Finset.card_erase_of_mem hf]
    generalize S.card = n at *
    unfold sub32 u32
    omega

/-- The manager knows nothing of frames beyond its memory. -/
theorem freeFrame_foreign (h : p.maxFrames ≤ f) : p.freeFrame f = p := if_pos h

/-- Frames are given back one after the other, foreign ones among them. -/
theorem borrowed_returnAll (hs : Settled p₀) (L : List ℕ) (hb : Borrowed p₀ p S)
    (hL : (L.filter (· < p₀.maxFrames)).Nodup) (hmem : ∀ f ∈ L, f < p₀.maxFrames → f ∈ S) :
    Borrowed p₀ (L.foldl Pmm.freeFrame p) (S \ L.toFinset) := by
  induction L generalizing p S with
  | nil => simpa using hb
  | cons f L ih =>
    rw [List.foldl_cons]
    by_cases hlt : f < p₀.maxFrames
    · rw [List.filter_cons_of_pos (by simpa using hlt)] at hL
      obtain ⟨hnot, hL⟩ := List.nodup_cons.mp hL
      have hf := hmem f List.mem_cons_self hlt
      have hrest := ih (borrowed_return hs hb hf) hL fun g hg hglt =>
        Finset.mem_erase.mpr ⟨fun he => hnot (he ▸ List.mem_filter.mpr ⟨hg, by simpa using hglt⟩),
          hmem g (List.mem_cons_of_mem _ hg) hglt⟩
      convert hrest using 1
      ext g
      simp only [Finset.mem_sdiff, List.mem_toFinset, List.mem_cons, Finset.mem_erase]
      tauto
    · rw [List.filter_cons_of_neg (by simpa using hlt)] at hL
      rw [freeFrame_foreign (by rw [hb.maxFrames]; omega)]
      have hrest := ih hb hL fun g hg => hmem g (List.mem_cons_of_mem _ hg)
      convert hrest using 1
      ext g
      simp only [Finset.mem_sdiff, List.mem_toFinset, List.mem_cons]
      constructor
      · tauto
      · rintro ⟨hgS, hgL⟩
        refine ⟨hgS, fun hc => hc.elim (fun he => hlt (he ▸ hb.inside g hgS)) hgL⟩

end Vlsmc.BorrowedFrames
