import Vlsmc.PhysicalMemory

/-!
# Successive allocations

How many frames the manager gives depends on its bitmap and its count of used frames, not on
the reference counts.
-/

set_option autoImplicit false

namespace Vlsmc.FrameSupply
open Vlsmc.Words Vlsmc.PhysicalMemory

/-- The manager after `n` calls of `alloc_frame`. -/
def allocFrames (p : Pmm) : ℕ → Pmm
  | 0 => p
  | n+1 => (allocFrames p n).allocFrame.2

/-- The first `n` calls give a frame. -/
def Gives (p : Pmm) (n : ℕ) : Prop := ∀ k < n, (allocFrames p k).allocFrame.1 ≠ 0

instance (p : Pmm) (n : ℕ) : Decidable (Gives p n) :=
  inferInstanceAs (Decidable (∀ k < n, (allocFrames p k).allocFrame.1 ≠ 0))

/-- The managers give the same frames. -/
structure SameSupply (p q : Pmm) : Prop where
  memoryBitmap : q.memoryBitmap = p.memoryBitmap
  maxFrames : q.maxFrames = p.maxFrames
  usedFrames : q.usedFrames = p.usedFrames

/-- A frame that can be allocated, and that nobody counts on. -/
structure Free (p : Pmm) (f : ℕ) : Prop where
  bit : p.memoryBitmap f = false
  bound : f < p.maxFrames

variable {p q r : Pmm} {n k : ℕ}

theorem allocFrames_maxFrames (p : Pmm) (n : ℕ) : (allocFrames p n).maxFrames = p.maxFrames := by
  induction n with
  | zero => rfl
  | succ n ih => exact (allocFrame_maxFrames _).trans ih

theorem gives_mono (h : Gives p n) (hk : k ≤ n) : Gives p k := fun j hj => h j (by omega)

theorem gives_succ : Gives p (n+1) ↔ Gives p n ∧ (allocFrames p n).allocFrame.1 ≠ 0 := by
  constructor
  · intro h
    exact ⟨gives_mono h (by omega), h n (by omega)⟩
  · rintro ⟨h, hn⟩ k hk
    by_cases hkn : k = n
    · rw [hkn]
      exact hn
    · exact h k (by omega)

theorem sameSupply_refl (p : Pmm) : SameSupply p p := ⟨rfl, rfl, rfl⟩

theorem sameSupply_trans (h : SameSupply p q) (h' : SameSupply q r) : SameSupply p r :=
  ⟨h'.memoryBitmap.trans h.memoryBitmap, h'.maxFrames.trans h.maxFrames,
    h'.usedFrames.trans h.usedFrames⟩

theorem sameSupply_incRef (p : Pmm) (f : ℕ) : SameSupply p (p.incRef f) := by
  unfold Pmm.incRef
  split_ifs <;> exact ⟨rfl, rfl, rfl⟩

theorem sameSupply_alloc (h : SameSupply p q) :
    q.allocFrame.1 = p.allocFrame.1 ∧ SameSupply p.allocFrame.2 q.allocFrame.2 := by
  have hfree : q.getFreeMemory = p.getFreeMemory := by
    rw [Pmm.getFreeMemory, Pmm.getFreeMemory, h.maxFrames, h.usedFrames]
  have hfirst : q.getFirstFreeFrame = p.getFirstFreeFrame := by
    rw [Pmm.getFirstFreeFrame, Pmm.getFirstFreeFrame, h.maxFrames, h.memoryBitmap]
  unfold Pmm.allocFrame
  rw [hfree, hfirst, h.usedFrames]
  split_ifs
  · exact ⟨rfl, h⟩
  · cases p.getFirstFreeFrame with
    | none => exact ⟨rfl, h⟩
    | some f =>
      refine ⟨rfl, ⟨?_, h.maxFrames, rfl⟩⟩
      change (fun g => if g = f then true else q.memoryBitmap g) = _
      rw [h.memoryBitmap]
      rfl

/-- What an allocation that succeeds does. -/
theorem alloc_takes (h : p.allocFrame.1 ≠ 0) :
    Free p p.allocFrame.1 ∧ p.allocFrame.2.maxFrames = p.maxFrames ∧
    p.allocFrame.2.memoryBitmap p.allocFrame.1 = true ∧
    p.allocFrame.2.refcounts p.allocFrame.1 = 1 ∧
    ∀ g, g ≠ p.allocFrame.1 → Same p p.allocFrame.2 g := by
  rcases allocFrame_cases p with h0 | ⟨f, hlt, hbit, hfst, hmax, hset, hone, hsame⟩
  · exact absurd h0 h
  · rw [hfst]
    exact ⟨⟨hbit, hlt⟩, hmax, hset, hone, hsame⟩

/-- With frame zero in use a failed allocation changes nothing. -/
theorem alloc_fails (hnull : p.memoryBitmap 0 = true) (h : p.allocFrame.1 = 0) :
    p.allocFrame.2 = p := by
  rcases allocFrame_eq p with heq | ⟨f, -, hbit, heq⟩
  · rw [heq]
  · rw [heq] at h
    have hf : f = 0 := h
    rw [hf, hnull] at hbit
    exact absurd hbit (by decide)

end Vlsmc.FrameSupply
