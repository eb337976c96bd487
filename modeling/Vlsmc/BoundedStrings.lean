import Vlsmc.WordStrings

/-!
# Strings that are cut to the size of their buffer

`strlcpy` and `strlcat` store as many bytes as the size leaves room for and then the zero. The
length that they return is that of the string which they were asked for.
-/

set_option autoImplicit false

namespace Vlsmc.BoundedStrings
open Vlsmc.ByteMemory Vlsmc.CStrings Vlsmc.Words Vlsmc.TracedMemory Vlsmc.StringFunctions
open Vlsmc.MemoryBlocks Vlsmc.WordStrings

/-- The string stands in the buffer with its zero, and nothing behind that zero is changed or
written. -/
structure Stored (t t' : Traced) (dest size : ℕ) (s : List UInt8) : Prop where
  string : CString t'.mem dest s
  room : s.length < size
  leaves : Leaves t t' dest (s.length+1)

variable {R : Set ℕ} {t t' t'' : Traced} {d p k n size : ℕ} {s l : List UInt8}

theorem leaves_trans (h : Leaves t t' d n) (h' : Leaves t' t'' d n) : Leaves t t'' d n := by
  intro k hk
  obtain ⟨hmem, hw⟩ := h k hk
  obtain ⟨hmem', hw'⟩ := h' k hk
  exact ⟨hmem'.trans hmem, fun hin => hw (hw' hin)⟩

theorem leaves_mono (h : Leaves t t' p k) (hd : d ≤ p) (hn : p+k ≤ d+n) : Leaves t t' d n :=
  fun j hj => h j fun hin => hj (by omega)

theorem reads_leaves (h : Reads R t t') (d n : ℕ) : Leaves t t' d n :=
  fun k _ => ⟨congrFun h.mem k, fun hk => (h.within.writes k hk).resolve_right fun hin => hin⟩

theorem cstring_append {m : Memory} (hl : Holds m p l) (h0 : (0 : UInt8) ∉ l)
    (h : CString m (p+l.length) s) : CString m p (l++s) := by
  constructor
  · rw [List.append_assoc]
    exact holds_append.mpr ⟨hl, h.holds⟩
  · intro hin
    exact (List.mem_append.mp hin).elim h0 h.chars
  · rw [List.length_append, ← Nat.add_assoc]
    exact h.below

theorem take_min (s : List UInt8) (n : ℕ) :
    s.take (if s.length < n then s.length else n) = s.take n := by
  split_ifs with h
  · rw [List.take_length, List.take_of_length_le (by omega)]
  · rfl

/-- The first bytes of a string are copied, and a zero is stored behind them. -/
theorem copied_terminated (h : CString t.mem p s) (hk : k ≤ s.length)
    (hc : Copied R t t' d p k) (hd : d+k < 4294967296) :
    CString (t'.store8 (d+k) 0).mem d (s.take k) ∧ Leaves t (t'.store8 (d+k) 0) d (k+1) := by
  have hlen : (s.take k).length = k := List.length_take_of_le hk
  have hwrite : Within R (range d (k+1)) t (t'.store8 (d+k) 0) := by
    refine (hc.within.mono (fun _ => id) fun j hj => ?_).trans
      (within_store8 t' R 0 ⟨by omega, by omega⟩)
    rw [mem_range] at hj ⊢
    omega
  constructor
  · refine ⟨holds_append.mpr ⟨?_, ?_⟩, fun hin => h.chars (List.mem_of_mem_take hin), ?_⟩
    · unfold Holds
      rw [hlen, ← (cstring_drop h hk).2]
      apply bytes_congr
      intro i hi
      change write8 t'.mem (d+k) 0 (d+i) = _
      rw [write8_ne _ _ (by omega), hc.mem, place_get _ _ hi]
    · rw [hlen]
      exact holds_single.mpr (write8_same _ _ _)
    · rwa [hlen]
  · intro j hj
    refine ⟨?_, fun hw => (hwrite.writes j hw).resolve_right hj⟩
    change write8 t'.mem (d+k) 0 j = _
    rw [write8_ne _ _ (by omega), hc.mem, place_ne _ _ (by omega)]

theorem strlcpy_stored (fuel : ℕ) (h : CString t.mem p s) (hd : d ≠ 0) (hp : p ≠ 0)
    (hsize : 1 ≤ size) (hend : d+(s.take (size-1)).length < 4294967296)
    (hap : d+(s.take (size-1)).length < p ∨ p+s.length < d) (hfuel : s.length < fuel) :
    ∃ t', strlcpy fuel d p size t = some (s.length, t') ∧
      Stored t t' d size (s.take (size-1)) := by
  have hbelow := h.below
  obtain ⟨t1, hlen, hreads⟩ := strlen_spec fuel h hp hfuel
  unfold strlcpy
  rw [if_neg (by omega), hlen]
  dsimp only [Option.bind_eq_bind, Option.bind_some]
  rw [← take_min s (size-1)] at hend hap ⊢
  generalize hk : (if s.length < size-1 then s.length else size-1) = k at hend hap ⊢
  have hks : k ≤ s.length := by
    rw [← hk]
    split_ifs <;> omega
  have hroom : k < size := by
    rw [← hk]
    split_ifs <;> omega
  rw [List.length_take_of_le hks] at hend hap
  obtain ⟨-, hc⟩ := memcpy_copied d p k t1 hd hp (by omega) (by omega) (by omega)
  rw [← hreads.mem] at h
  obtain ⟨hstring, hleaves⟩ := copied_terminated h hks hc hend
  rw [u32_of_lt hend]
  refine ⟨_, rfl, hstring, ?_, ?_⟩
  · rwa [List.length_take_of_le hks]
  · rw [List.length_take_of_le hks]
    exact leaves_trans (reads_leaves hreads d (k+1)) hleaves

theorem take_append_room (hl : l.length < size) :
    (l++s).take (size-1) = l++s.take (size-l.length-1) := by
  rw [List.take_append, List.take_of_length_le (by omega),
    show size-1-l.length = size-l.length-1 by omega]

/-- Two strings that lie apart are together shorter than the address space. -/
theorem apart_lengths {m : Memory} (hl : CString m d l) (h : CString m p s)
    (hap : d+l.length < p ∨ p+s.length < d) : l.length+s.length < 4294967296 := by
  have hbelow := h.below
  have hbelow' := hl.below
  omega

theorem strlcat_stored (fuel : ℕ) (hl : CString t.mem d l) (h : CString t.mem p s) (hd : d ≠ 0)
    (hp : p ≠ 0) (hroom : l.length < size)
    (hend : d+((l++s).take (size-1)).length < 4294967296)
    (hap : d+((l++s).take (size-1)).length < p ∨ p+s.length < d) (hfl : l.length < fuel)
    (hfuel : s.length < fuel) : ∃ t', strlcat fuel d p size t = some (l.length+s.length, t') ∧
      Stored t t' d size ((l++s).take (size-1)) := by
  have hbelow := h.below
  rw [take_append_room hroom, List.length_append] at hend hap
  have hsum := apart_lengths hl h (by omega)
  obtain ⟨t1, hlen, hreads⟩ := strlen_spec fuel hl hd hfl
  obtain ⟨t2, hlen', hreads'⟩ := strlen_spec fuel (hreads.mem ▸ h) hp hfuel
  have hmem : t2.mem = t.mem := hreads'.mem.trans hreads.mem
  unfold strlcat
  rw [if_neg (by omega), hlen]
  dsimp only [Option.bind_eq_bind, Option.bind_some]
  rw [hlen']
  dsimp only [Option.bind_some]
  rw [if_neg (by omega), u32_of_lt hsum, u32_of_lt (show d+l.length < _ by omega)]
  rw [take_append_room hroom]
  rw [← take_min s (size-l.length-1)] at hend hap ⊢
  generalize hk : (if s.length < size-l.length-1 then s.length else size-l.length-1) = k
    at hend hap ⊢
  have hks : k ≤ s.length := by
    rw [← hk]
    split_ifs <;> omega
  have hfit : l.length+k < size := by
    rw [← hk]
    split_ifs <;> omega
  rw [List.length_take_of_le hks] at hend hap
  obtain ⟨-, hc⟩ := memcpy_copied (d+l.length) p k t2 (by omega) hp (by omega) (by omega)
    (by omega)
  obtain ⟨hstring, hleaves⟩ := copied_terminated (hmem ▸ h) hks hc (by omega)
  have hall : Leaves t ((memcpy (d+l.length) p k t2).2.store8 (d+l.length+k) 0) (d+l.length)
      (k+1) := leaves_trans (leaves_trans (reads_leaves hreads _ _) (reads_leaves hreads' _ _))
        hleaves
  rw [u32_of_lt (show d+l.length+k < _ by omega)]
  refine ⟨_, rfl, cstring_append ?_ hl.chars hstring, ?_, ?_⟩
  · -- the destination's own characters lie below what is written
    apply holds_congr _ (holds_append.mp hl.holds).1
    intro j hj hj'
    exact (hall j (by omega)).1
  · rwa [List.length_append, List.length_take_of_le hks]
  · rw [List.length_append, List.length_take_of_le hks]
    exact leaves_mono hall (by omega) (by omega)

/-- A destination that fills its buffer stays as it is. -/
theorem strlcat_full (fuel : ℕ) (hl : CString t.mem d l) (h : CString t.mem p s) (hd : d ≠ 0)
    (hp : p ≠ 0) (hsize : 1 ≤ size) (hfull : size ≤ l.length)
    (hap : d+l.length < p ∨ p+s.length < d) (hfl : l.length < fuel) (hfuel : s.length < fuel) :
    ∃ t', strlcat fuel d p size t = some (size+s.length, t') ∧
      Reads (words d (l.length+1) ∪ words p (s.length+1)) t t' := by
  have hsum := apart_lengths hl h hap
  obtain ⟨t1, hlen, hreads⟩ := strlen_spec fuel hl hd hfl
  obtain ⟨t2, hlen', hreads'⟩ := strlen_spec fuel (hreads.mem ▸ h) hp hfuel
  refine ⟨t2, ?_, (hreads.mono fun k => Or.inl).trans (hreads'.mono fun k => Or.inr)⟩
  unfold strlcat
  rw [if_neg (by omega), hlen]
  dsimp only [Option.bind_eq_bind, Option.bind_some]
  rw [hlen']
  dsimp only [Option.bind_some]
  rw [if_pos hfull, u32_of_lt (by omega)]

/-- What the two functions leave in the buffer and what they return. -/
theorem bounded_concatenation (t : Traced) (p : ℕ) (s : List UInt8) (hp : p ≠ 0)
    (h : CString t.mem p s) (d size : ℕ) (hd : d ≠ 0) (hsize : 1 ≤ size) :
    (d+min s.length (size-1) < 4294967296 →
      (d+min s.length (size-1) < p ∨ p+s.length < d) → ∀ fuel, s.length < fuel →
      ∃ t', strlcpy fuel d p size t = some (s.length, t') ∧
        Stored t t' d size (s.take (size-1))) ∧
    (∀ l, CString t.mem d l →
      d+max l.length (min (l.length+s.length) (size-1)) < 4294967296 →
      (d+max l.length (min (l.length+s.length) (size-1)) < p ∨ p+s.length < d) →
      ∀ fuel, l.length < fuel → s.length < fuel →
      (l.length < size → ∃ t', strlcat fuel d p size t = some (l.length+s.length, t') ∧
        Stored t t' d size ((l++s).take (size-1))) ∧
      (size ≤ l.length → ∃ t', strlcat fuel d p size t = some (size+s.length, t') ∧
        t'.mem = t.mem ∧ ∀ k ∈ t'.writes, k ∈ t.writes)) := by
  refine ⟨fun hend hap fuel hfuel => ?_, fun l hl hend hap fuel hfl hfuel => ⟨fun hroom => ?_,
    fun hfull => ?_⟩⟩
  · have hlen : (s.take (size-1)).length = min s.length (size-1) := by
      rw [List.length_take, Nat.min_comm]
    exact strlcpy_stored fuel h hd hp hsize (by omega) (by omega) hfuel
  · have hlen : ((l++s).take (size-1)).length = min (l.length+s.length) (size-1) := by
      rw [List.length_take, List.length_append, Nat.min_comm]
    exact strlcat_stored fuel hl h hd hp hroom (by omega) (by omega) hfl hfuel
  · obtain ⟨t', heq, hreads⟩ := strlcat_full fuel hl h hd hp hsize hfull (by omega) hfl hfuel
    exact ⟨t', heq, hreads.mem, fun k hk => (hreads.within.writes k hk).resolve_right id⟩

/-- A copy that is cut, a concatenation that is cut, and one without room. -/
theorem bounded_concatenation_texts :
    (∃ t', strlcpy 6 60 20 4 twoTexts = some (5, t') ∧
      Stored twoTexts t' 60 4 [97, 200, 99]) ∧
    (∃ t', strlcat 6 33 20 8 twoTexts = some (10, t') ∧
      Stored twoTexts t' 33 8 [97, 200, 99, 98, 98, 97, 200]) ∧
    (∃ t', strlcat 6 33 20 5 twoTexts = some (10, t') ∧ t'.mem = twoTexts.mem) := by
  obtain ⟨h1, h2⟩ := twoTexts_strings
  obtain ⟨hcopy, -⟩ := bounded_concatenation twoTexts 20 _ (by decide) h1 60 4 (by decide)
    (by decide)
  obtain ⟨-, hcat⟩ := bounded_concatenation twoTexts 20 _ (by decide) h1 33 8 (by decide)
    (by decide)
  obtain ⟨-, hfull⟩ := bounded_concatenation twoTexts 20 _ (by decide) h1 33 5 (by decide)
    (by decide)
  obtain ⟨t', heq, hmem, -⟩ := (hfull _ h2 (by decide) (by decide) 6 (by decide) (by decide)).2
    (by decide)
  exact ⟨hcopy (by decide) (by decide) 6 (by decide),
    (hcat _ h2 (by decide) (by decide) 6 (by decide) (by decide)).1 (by decide), t', heq, hmem⟩

end Vlsmc.BoundedStrings
