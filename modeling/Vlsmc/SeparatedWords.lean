import Mathlib.Data.List.TakeWhile

/-!
# Words between separators

The non-empty pieces of a list between the occurrences of a separator, read from the front one
word at a time, or cut at the last separator.
-/

set_option autoImplicit false

namespace Vlsmc.SeparatedWords

variable {α : Type*} [DecidableEq α] (sep : α)

def words (l : List α) : List (List α) := (l.splitOn sep).filter fun w => w ≠ []

theorem words_nil : words sep [] = [] := rfl

/-- A separator ends the words before it. -/
theorem words_append (l m : List α) : words sep (l++sep::m) = words sep l++words sep m := by
  rw [words, List.splitOn_append_cons_self, List.filter_append]
  rfl

theorem words_sep (l : List α) : words sep (sep::l) = words sep l := words_append sep [] l

theorem words_dropWhile (l : List α) : words sep (l.dropWhile (· == sep)) = words sep l := by
  induction l with
  | nil => rfl
  | cons a l ih =>
    by_cases h : a = sep
    · subst h
      rw [List.dropWhile_cons_of_pos (by simp), words_sep, ih]
    · rw [List.dropWhile_cons_of_neg (by simpa using h)]

variable {sep}

theorem words_word {w : List α} (hw : sep ∉ w) (hne : w ≠ []) : words sep w = [w] := by
  rw [words, List.splitOn_eq_singleton hw]
  simp [hne]

theorem takeWhile_word (sep : α) (l : List α) : sep ∉ l.takeWhile (· != sep) := by
  intro h
  simpa using List.mem_takeWhile_imp h

theorem drop_takeWhile {β : Type*} (l : List β) (p : β → Bool) :
    l.drop (l.takeWhile p).length = l.dropWhile p := by
  have hsplit := List.takeWhile_append_dropWhile (p := p) (l := l)
  calc l.drop (l.takeWhile p).length
      = (l.takeWhile p++l.dropWhile p).drop (l.takeWhile p).length := by rw [hsplit]
    _ = l.dropWhile p := List.drop_left

/-- A list that does not start with a separator: its first word, and what is left. -/
theorem words_first {a : α} {l : List α} (ha : a ≠ sep) : words sep (a::l) =
    (a::l).takeWhile (· != sep)::words sep ((a::l).dropWhile (· != sep)) := by
  have hword : (a::l).takeWhile (· != sep) ≠ [] := by
    rw [List.takeWhile_cons_of_pos (by simpa using ha)]
    simp
  have hone := words_word (takeWhile_word sep (a::l)) hword
  have hsplit := List.takeWhile_append_dropWhile (p := (· != sep)) (l := a::l)
  cases hrest : (a::l).dropWhile (· != sep) with
  | nil =>
    rw [hrest, List.append_nil] at hsplit
    rw [hsplit] at hone ⊢
    exact hone
  | cons b rest =>
    -- the word ends at a separator
    have hb : b = sep := by
      have hhead := List.head_dropWhile_not (· != sep) (l := a::l) (by simp [hrest])
      simpa [hrest] using hhead
    rw [hrest, hb] at hsplit
    rw [hb, words_sep]
    calc words sep (a::l)
        = words sep ((a::l).takeWhile (· != sep)++sep::rest) := by rw [hsplit]
      _ = words sep ((a::l).takeWhile (· != sep))++words sep rest := words_append sep _ _
      _ = (a::l).takeWhile (· != sep)::words sep rest := by rw [hone]; rfl

/-- A list has no separator, or is cut at its last one. -/
theorem last_separator (sep : α) (l : List α) : sep ∉ l ∨ ∃ p w, l = p++sep::w ∧ sep ∉ w := by
  by_cases h : sep ∈ l
  · obtain ⟨as, bs, hl, has⟩ := List.eq_append_cons_of_mem (List.mem_reverse.mpr h)
    refine Or.inr ⟨bs.reverse, as.reverse, ?_, by simpa using has⟩
    rw [← List.reverse_reverse l, hl]
    simp
  · exact Or.inl h

theorem words_clean {w : List α} (l : List α) (hw : w ∈ words sep l) : sep ∉ w := by
  induction hn : l.length using Nat.strong_induction_on generalizing l with
  | _ n ih =>
    have hclean : ∀ m : List α, sep ∉ m → w ∈ words sep m → sep ∉ w := by
      intro m hm hwm
      by_cases hnil : m = []
      · rw [hnil, words_nil] at hwm
        cases hwm
      · rw [words_word hm hnil, List.mem_singleton] at hwm
        rwa [hwm]
    rcases last_separator sep l with hl | ⟨p, m, rfl, hm⟩
    · exact hclean l hl hw
    · rw [words_append, List.mem_append] at hw
      rcases hw with hw | hw
      · have hlen : p.length < n := by simp [← hn]
        exact ih p.length hlen p hw rfl
      · exact hclean m hm hw

end Vlsmc.SeparatedWords
