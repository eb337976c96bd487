import Vlsmc.ByteMemory

/-!
# Accesses to memory

A memory together with the addresses that have been read and written, and the byte
ranges to which the accesses of a piece of code are confined.
-/

set_option autoImplicit false

namespace Vlsmc.TracedMemory
open Vlsmc.ByteMemory

structure Traced where
  mem : Memory
  reads : List ℕ
  writes : List ℕ

namespace Traced

def load8 (t : Traced) (a : ℕ) : UInt8 × Traced := (t.mem a, { t with reads := a::t.reads })

def load32 (t : Traced) (a : ℕ) : ℕ × Traced :=
  (read32 t.mem a, { t with reads := a::(a+1)::(a+2)::(a+3)::t.reads })

def store8 (t : Traced) (a : ℕ) (v : UInt8) : Traced :=
  { t with mem := write8 t.mem a v, writes := a::t.writes }

def store32 (t : Traced) (a v : ℕ) : Traced :=
  { t with mem := write32 t.mem a v, writes := a::(a+1)::(a+2)::(a+3)::t.writes }

end Traced

/-- The addresses of `n` bytes from `a` on. -/
def range (a n : ℕ) : Set ℕ := fun k => a ≤ k ∧ k < a+n

/-- What is read is in `R`, and what is written in `W`. -/
structure Within (R W : Set ℕ) (t t' : Traced) : Prop where
  reads : ∀ k ∈ t'.reads, k ∈ t.reads ∨ k ∈ R
  writes : ∀ k ∈ t'.writes, k ∈ t.writes ∨ k ∈ W

variable {R R' W W' : Set ℕ} {t t' t'' : Traced} {a b n k : ℕ}

@[simp] theorem mem_range : k ∈ range a n ↔ a ≤ k ∧ k < a+n := Iff.rfl

theorem Within.refl (R W : Set ℕ) (t : Traced) : Within R W t t :=
  ⟨fun _ => Or.inl, fun _ => Or.inl⟩

theorem Within.trans (h : Within R W t t') (h' : Within R W t' t'') : Within R W t t'' :=
  ⟨fun k hk => (h'.reads k hk).elim (h.reads k) Or.inr,
    fun k hk => (h'.writes k hk).elim (h.writes k) Or.inr⟩

theorem Within.mono (h : Within R W t t') (hR : ∀ k ∈ R, k ∈ R') (hW : ∀ k ∈ W, k ∈ W') :
    Within R' W' t t' :=
  ⟨fun k hk => (h.reads k hk).imp_right (hR k), fun k hk => (h.writes k hk).imp_right (hW k)⟩

theorem within_load8 (t : Traced) (W : Set ℕ) (ha : a ∈ R) : Within R W t (t.load8 a).2 := by
  refine ⟨fun k hk => ?_, fun k hk => Or.inl hk⟩
  rcases List.mem_cons.mp hk with rfl | hk
  · exact Or.inr ha
  · exact Or.inl hk

theorem within_store8 (t : Traced) (R : Set ℕ) (v : UInt8) (ha : a ∈ W) :
    Within R W t (t.store8 a v) := by
  refine ⟨fun k hk => Or.inl hk, fun k hk => ?_⟩
  rcases List.mem_cons.mp hk with rfl | hk
  · exact Or.inr ha
  · exact Or.inl hk

/-- One of the addresses of a word, or one of those before. -/
theorem mem_word {l : List ℕ} (h : k ∈ a::(a+1)::(a+2)::(a+3)::l) : k ∈ range a 4 ∨ k ∈ l := by
  simp only [List.mem_cons] at h
  rw [mem_range]
  rcases h with h | h | h | h | h
  · exact Or.inl (by omega)
  · exact Or.inl (by omega)
  · exact Or.inl (by omega)
  · exact Or.inl (by omega)
  · exact Or.inr h

theorem within_load32 (t : Traced) (W : Set ℕ) (ha : ∀ k ∈ range a 4, k ∈ R) :
    Within R W t (t.load32 a).2 :=
  ⟨fun k hk => (mem_word hk).symm.imp_right (ha k), fun _ hk => Or.inl hk⟩

theorem within_store32 (t : Traced) (R : Set ℕ) (v : ℕ) (ha : ∀ k ∈ range a 4, k ∈ W) :
    Within R W t (t.store32 a v) :=
  ⟨fun _ hk => Or.inl hk, fun k hk => (mem_word hk).symm.imp_right (ha k)⟩

/-- Two stretches of one sequence, one after the other. -/
theorem place_place (m : Memory) (a n k : ℕ) (f : ℕ → UInt8) :
    place (place m a n f) (a+n) k (fun i => f (n+i)) = place m a (n+k) f := by
  funext j
  unfold place
  by_cases h : a+n ≤ j ∧ j < a+n+k
  · rw [if_pos h, if_pos (by omega)]
    exact congrArg f (by omega)
  · rw [if_neg h]
    by_cases hj : a ≤ j ∧ j < a+n
    · rw [if_pos hj, if_pos (by omega)]
    · rw [if_neg hj, if_neg (by omega)]

theorem place_congr (m : Memory) (a n : ℕ) {f g : ℕ → UInt8} (h : ∀ i < n, f i = g i) :
    place m a n f = place m a n g := by
  funext j
  unfold place
  by_cases hj : a ≤ j ∧ j < a+n
  · rw [if_pos hj, if_pos hj]
    exact h (j-a) (by omega)
  · rw [if_neg hj, if_neg hj]

/-- The byte of a word that is stored at each of its addresses. -/
theorem write32_eq (m : Memory) (a v : ℕ) :
    write32 m a v = place m a 4 fun i => UInt8.ofNat (v/256^i) := by
  funext j
  unfold write32 place
  by_cases h0 : j = a
  · rw [if_pos h0, if_pos (by omega), h0, Nat.sub_self]
    exact congrArg UInt8.ofNat (Nat.div_one v).symm
  by_cases h1 : j = a+1
  · rw [if_neg h0, if_pos h1, if_pos (by omega), h1, show a+1-a = 1 by omega]
    rfl
  by_cases h2 : j = a+2
  · rw [if_neg h0, if_neg h1, if_pos h2, if_pos (by omega), h2, show a+2-a = 2 by omega]
    rfl
  by_cases h3 : j = a+3
  · rw [if_neg h0, if_neg h1, if_neg h2, if_pos h3, if_pos (by omega), h3,
      show a+3-a = 3 by omega]
    rfl
  · rw [if_neg h0, if_neg h1, if_neg h2, if_neg h3, if_neg (by omega)]

/-- The bytes of a word that was read. -/
theorem byte_read32 (m : Memory) (a : ℕ) {i : ℕ} (h : i < 4) :
    UInt8.ofNat (read32 m a/256^i) = m (a+i) := by
  have h0 := (m a).toNat_lt
  have h1 := (m (a+1)).toNat_lt
  have h2 := (m (a+2)).toNat_lt
  have h3 := (m (a+3)).toNat_lt
  apply UInt8.toNat_inj.mp
  rw [UInt8.toNat_ofNat']
  unfold read32
  rcases show i = 0 ∨ i = 1 ∨ i = 2 ∨ i = 3 by omega with rfl | rfl | rfl | rfl
  all_goals
    norm_num
    omega

/-- A word that is read in one place and stored in another. -/
theorem write32_copied (m m' : Memory) (a b : ℕ) :
    write32 m a (read32 m' b) = place m a 4 fun i => m' (b+i) := by
  rw [write32_eq]
  exact place_congr m a 4 fun i hi => byte_read32 m' b hi

end Vlsmc.TracedMemory
