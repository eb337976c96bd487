import Vlsmc.ByteMemory

/-!
# Patches to words of memory

A patch replaces the word at an address by a function of that word. Patches to
words apart from each other may be read one at a time: each finds the word the
memory held before any of them.
-/

set_option autoImplicit false

namespace Vlsmc.WordPatches
open Vlsmc.ByteMemory

structure Patch where
  addr : ℕ
  f : ℕ → ℕ

def Patch.apply (m : Memory) (p : Patch) : Memory := write32 m p.addr (p.f (read32 m p.addr))

def applyAll (m : Memory) (ps : List Patch) : Memory := ps.foldl Patch.apply m

/-- Words that share no byte. -/
def WordsApart (a b : ℕ) : Prop := a+4 ≤ b ∨ b+4 ≤ a

instance (a b : ℕ) : Decidable (WordsApart a b) := inferInstanceAs (Decidable (_ ∨ _))

theorem wordsApart_symm {a b : ℕ} (h : WordsApart a b) : WordsApart b a := h.symm

variable {m : Memory} {p : Patch} {ps qs : List Patch} {a : ℕ}

@[simp] theorem applyAll_nil (m : Memory) : applyAll m [] = m := rfl

@[simp] theorem applyAll_cons (m : Memory) (p : Patch) (ps : List Patch) :
    applyAll m (p::ps) = applyAll (p.apply m) ps := rfl

theorem applyAll_append (m : Memory) (ps qs : List Patch) :
    applyAll m (ps++qs) = applyAll (applyAll m ps) qs := List.foldl_append

theorem apply_ne {k : ℕ} (h : k < p.addr ∨ p.addr+4 ≤ k) : p.apply m k = m k :=
  write32_ne m _ h

theorem applyAll_ne {k : ℕ} (h : ∀ p ∈ ps, k < p.addr ∨ p.addr+4 ≤ k) :
    applyAll m ps k = m k := by
  induction ps generalizing m with
  | nil => rfl
  | cons p ps ih =>
    rw [applyAll_cons, ih fun q hq => h q (List.mem_cons_of_mem p hq),
      apply_ne (h p List.mem_cons_self)]

/-- A word apart from every patched one is left alone. -/
theorem applyAll_word_ne (h : ∀ p ∈ ps, WordsApart p.addr a) :
    read32 (applyAll m ps) a = read32 m a := by
  apply read32_congr
  intro k _ _
  apply applyAll_ne
  intro p hp
  rcases h p hp with h | h <;> omega

/-- Among patches to words apart, each acts on the word as it was. -/
theorem applyAll_word (hp : p ∈ ps) (hf : p.f (read32 m p.addr) < 4294967296)
    (h : (ps.map Patch.addr).Pairwise WordsApart) :
    read32 (applyAll m ps) p.addr = p.f (read32 m p.addr) := by
  induction ps generalizing m with
  | nil => cases hp
  | cons q ps ih =>
    rw [List.map_cons, List.pairwise_cons] at h
    rw [applyAll_cons]
    rcases List.mem_cons.mp hp with rfl | hp
    · rw [applyAll_word_ne, Patch.apply, read32_write32 m _ hf]
      intro q hq
      exact wordsApart_symm (h.1 q.addr (List.mem_map_of_mem hq))
    · have hq : read32 (q.apply m) p.addr = read32 m p.addr := by
        apply read32_write32_ne
        exact h.1 p.addr (List.mem_map_of_mem hp)
      rw [ih hp (by rwa [hq]) h.2, hq]

/-- A patch that keeps the word is no change. -/
theorem apply_id (h : p.f (read32 m p.addr) = read32 m p.addr) : p.apply m = m := by
  rw [Patch.apply, h, write32_read32]

theorem place_apply (m : Memory) (n : ℕ) (f : ℕ → UInt8) (h : p.addr+4 ≤ a ∨ a+n ≤ p.addr) :
    place (p.apply m) a n f = p.apply (place m a n f) := by
  have hw : read32 (place m a n f) p.addr = read32 m p.addr := by
    apply read32_congr
    intro k _ _
    exact place_ne m f (by omega)
  funext k
  unfold Patch.apply
  rw [hw]
  by_cases hk : a ≤ k ∧ k < a+n
  · rw [write32_ne _ _ (by omega)]
    unfold place
    rw [if_pos hk, if_pos hk]
  · rw [place_ne _ _ (by omega)]
    unfold write32
    rw [place_ne _ _ (by omega)]

/-- Bytes placed away from the patched words may be placed first. -/
theorem place_applyAll (m : Memory) (n : ℕ) (f : ℕ → UInt8)
    (h : ∀ p ∈ ps, p.addr+4 ≤ a ∨ a+n ≤ p.addr) :
    place (applyAll m ps) a n f = applyAll (place m a n f) ps := by
  induction ps generalizing m with
  | nil => rfl
  | cons p ps ih =>
    rw [applyAll_cons, applyAll_cons, ih _ fun q hq => h q (List.mem_cons_of_mem p hq),
      place_apply m n f (h p List.mem_cons_self)]

end Vlsmc.WordPatches
