import Vlsmc.ByteMemory

/-!
# Strings in memory

Strings that end with a zero byte, strings packed one after the other, and arrays of
pointers to strings that end with a null pointer, in a memory of 2³² bytes.
-/

set_option autoImplicit false

namespace Vlsmc.CStrings
open Vlsmc.ByteMemory

/-- The bytes from `a` on are those of the list. -/
def Holds (m : Memory) (a : ℕ) (l : List UInt8) : Prop := bytes m a l.length = l

structure CString (m : Memory) (p : ℕ) (s : List UInt8) : Prop where
  holds : Holds m p (s++[0])
  chars : (0 : UInt8) ∉ s
  below : p+s.length < 4294967296

def packed (ss : List (List UInt8)) : List UInt8 := ss.flatMap fun s => s++[0]

/-- From `a` on there are pointers to the strings, and then a null pointer. -/
def PointerArray (m : Memory) : ℕ → List (List UInt8) → Prop
  | a, [] => read32 m a = 0 ∧ a+4 ≤ 4294967296
  | a, s::ss => read32 m a ≠ 0 ∧ CString m (read32 m a) s ∧ PointerArray m (a+4) ss

/-- The pieces of memory that hold the strings of an array: address and size. -/
def pieces (m : Memory) : ℕ → List (List UInt8) → List (ℕ × ℕ)
  | _, [] => []
  | a, s::ss => (read32 m a, s.length+1)::pieces m (a+4) ss

/-- The pieces of packed strings. -/
def packedPieces : ℕ → List (List UInt8) → List (ℕ × ℕ)
  | _, [] => []
  | p, s::ss => (p, s.length+1)::packedPieces (p+(s.length+1)) ss

def Apart (x y : ℕ × ℕ) : Prop := x.1+x.2 ≤ y.1 ∨ y.1+y.2 ≤ x.1

section Holds

variable {m m' : Memory} {a : ℕ} {l k : List UInt8}

theorem holds_nil (m : Memory) (a : ℕ) : Holds m a [] := rfl

theorem holds_append : Holds m a (l++k) ↔ Holds m a l ∧ Holds m (a+l.length) k := by
  unfold Holds
  rw [List.length_append, bytes_add]
  exact ⟨fun h => List.append_inj h (bytes_length m a l.length), fun ⟨h1, h2⟩ => by rw [h1, h2]⟩

theorem holds_single {c : UInt8} : Holds m a [c] ↔ m a = c := by
  simp [Holds, bytes]

theorem holds_cons {c : UInt8} : Holds m a (c::l) ↔ m a = c ∧ Holds m (a+1) l := by
  rw [← List.singleton_append, holds_append, holds_single]
  rfl

theorem holds_congr (h : ∀ j, a ≤ j → j < a+l.length → m' j = m j) : Holds m a l → Holds m' a l := by
  intro hl
  exact (bytes_congr fun i hi => h (a+i) (by omega) (by omega)).trans hl

theorem holds_get (h : Holds m a l) {i : ℕ} (hi : i < l.length) : m (a+i) = l[i] := by
  have hget : (bytes m a l.length)[i]? = l[i]? := by rw [h]
  rw [bytes, List.getElem?_map, List.getElem?_range hi, List.getElem?_eq_getElem hi] at hget
  exact Option.some.inj hget

end Holds

section CString

variable {m m' : Memory} {p i : ℕ} {s : List UInt8}

theorem cstring_end (h : CString m p s) : m (p+s.length) = 0 := by
  have := holds_get h.holds (i := s.length) (by simp)
  simpa using this

theorem cstring_char (h : CString m p s) (hi : i < s.length) : m (p+i) = s[i] ∧ s[i] ≠ 0 := by
  have hget := holds_get h.holds (i := i) (by simp; omega)
  rw [List.getElem_append_left hi] at hget
  exact ⟨hget, fun h0 => h.chars (h0 ▸ List.getElem_mem hi)⟩

theorem cstring_congr (h : CString m p s) (hm : ∀ j, p ≤ j → j ≤ p+s.length → m' j = m j) :
    CString m' p s := by
  refine ⟨holds_congr (fun j h1 h2 => hm j h1 ?_) h.holds, h.chars, h.below⟩
  rw [List.length_append, List.length_singleton] at h2
  omega

theorem cstring_cons {c : UInt8} (h : CString m p (c::s)) :
    m p = c ∧ c ≠ 0 ∧ CString m (p+1) s := by
  obtain ⟨hc, hs⟩ := holds_cons.mp h.holds
  have hbelow := h.below
  rw [List.length_cons] at hbelow
  exact ⟨hc, fun h0 => h.chars (h0 ▸ List.mem_cons_self), hs,
    fun h0 => h.chars (List.mem_cons_of_mem _ h0), by omega⟩

theorem cstring_nil (h : CString m p []) : m p = 0 := cstring_end h

theorem pointerArray_below {a : ℕ} {ss : List (List UInt8)} (h : PointerArray m a ss) :
    a+4*ss.length+4 ≤ 4294967296 := by
  induction ss generalizing a with
  | nil => exact h.2
  | cons s ss ih =>
    have := ih h.2.2
    rw [List.length_cons]
    omega

theorem pointerArray_chars {a : ℕ} {ss : List (List UInt8)} (h : PointerArray m a ss) :
    ∀ s ∈ ss, (0 : UInt8) ∉ s := by
  induction ss generalizing a with
  | nil => simp
  | cons s ss ih =>
    intro t ht
    rcases List.mem_cons.mp ht with rfl | ht
    · exact h.2.1.chars
    · exact ih h.2.2 t ht

end CString

section Packed

variable {m m' : Memory} {a p : ℕ} {s : List UInt8} {ss ts : List (List UInt8)}

@[simp] theorem packed_nil : packed [] = [] := rfl

@[simp] theorem packed_cons (s : List UInt8) (ss : List (List UInt8)) :
    packed (s::ss) = (s++[0])++packed ss := rfl

@[simp] theorem packed_append (ss ts : List (List UInt8)) :
    packed (ss++ts) = packed ss++packed ts := List.flatMap_append

theorem length_le_packed (ss : List (List UInt8)) : ss.length ≤ (packed ss).length := by
  induction ss with
  | nil => rfl
  | cons s ss ih =>
    rw [packed_cons, List.length_append, List.length_append, List.length_cons,
      List.length_singleton]
    omega

theorem packedPieces_append (p : ℕ) (ss ts : List (List UInt8)) :
    packedPieces p (ss++ts) = packedPieces p ss++packedPieces (p+(packed ss).length) ts := by
  induction ss generalizing p with
  | nil => rfl
  | cons s ss ih =>
    rw [List.cons_append, packedPieces, ih, packedPieces, packed_cons, List.length_append,
      List.length_append, List.length_singleton, List.cons_append, Nat.add_assoc]

theorem mem_packedPieces {x : ℕ × ℕ} (hx : x ∈ packedPieces p ss) :
    p ≤ x.1 ∧ x.1+x.2 ≤ p+(packed ss).length := by
  induction ss generalizing p with
  | nil => exact absurd hx List.not_mem_nil
  | cons s ss ih =>
    rw [packed_cons, List.length_append, List.length_append, List.length_singleton]
    rcases List.mem_cons.mp hx with rfl | hx
    · constructor <;> omega
    · have := ih hx
      omega

/-- Packed strings do not overlap. -/
theorem packedPieces_apart (p : ℕ) (ss : List (List UInt8)) :
    (packedPieces p ss).Pairwise Apart := by
  induction ss generalizing p with
  | nil => exact List.Pairwise.nil
  | cons s ss ih =>
    refine List.Pairwise.cons (fun x hx => Or.inl ?_) (ih _)
    exact (mem_packedPieces hx).1

/-- An array of pointers to packed strings. -/
theorem pointerArray_packed (hp : 0 < p) (hb : p+(packed ss).length ≤ 4294967296)
    (hz : ∀ s ∈ ss, (0 : UInt8) ∉ s) (hss : Holds m p (packed ss))
    (hcells : pieces m a ss = packedPieces p ss) (hend : read32 m (a+4*ss.length) = 0)
    (ha : a+4*ss.length+4 ≤ 4294967296) : PointerArray m a ss := by
  induction ss generalizing a p with
  | nil => exact ⟨hend, ha⟩
  | cons s ss ih =>
    rw [packed_cons, holds_append] at hss
    rw [packed_cons, List.length_append, List.length_append, List.length_singleton] at hb
    rw [pieces, packedPieces, List.cons.injEq, Prod.mk.injEq] at hcells
    obtain ⟨⟨hcell, -⟩, hrest⟩ := hcells
    rw [List.length_cons] at hend ha
    refine ⟨by omega, ?_, ih (p := p+(s.length+1)) (by omega) (by omega)
      (fun t ht => hz t (List.mem_cons_of_mem s ht)) ?_ hrest ?_ (by omega)⟩
    · rw [hcell]
      exact ⟨hss.1, hz s List.mem_cons_self, by omega⟩
    · have h := hss.2
      rwa [List.length_append, List.length_singleton] at h
    · rw [← hend]
      congr 1
      omega

theorem pieces_congr (h : ∀ j, a ≤ j → j < a+4*ss.length → m' j = m j) :
    pieces m' a ss = pieces m a ss := by
  induction ss generalizing a with
  | nil => rfl
  | cons s ss ih =>
    rw [List.length_cons] at h
    rw [pieces, pieces, read32_congr fun j h1 h2 => h j h1 (by omega),
      ih fun j h1 h2 => h j (by omega) (by omega)]

/-- An array and its strings, in a memory with the same bytes there. -/
theorem pointerArray_congr (h : ∀ j, a ≤ j → j < a+4*(ss.length+1) → m' j = m j)
    (hs : ∀ x ∈ pieces m a ss, ∀ j, x.1 ≤ j → j < x.1+x.2 → m' j = m j)
    (ha : PointerArray m a ss) : PointerArray m' a ss := by
  induction ss generalizing a with
  | nil => exact ⟨(read32_congr fun j h1 h2 => h j h1 (by simpa using h2)).trans ha.1, ha.2⟩
  | cons s ss ih =>
    rw [List.length_cons] at h
    have hcell : read32 m' a = read32 m a := read32_congr fun j h1 h2 => h j h1 (by omega)
    obtain ⟨hne, hstr, hrest⟩ := ha
    refine ⟨by rwa [hcell], ?_, ih (fun j h1 h2 => h j (by omega) (by omega))
      (fun x hx => hs x (List.mem_cons_of_mem _ hx)) hrest⟩
    rw [hcell]
    refine ⟨holds_congr (fun j h1 h2 => ?_) hstr.holds, hstr.chars, hstr.below⟩
    rw [List.length_append, List.length_singleton] at h2
    exact hs _ List.mem_cons_self j h1 h2

end Packed

end Vlsmc.CStrings
