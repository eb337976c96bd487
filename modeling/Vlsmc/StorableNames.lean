import Vlsmc.Fat16Names

/-!
# Names that survive the 8.3 form

`format_83_name` cuts the base at eight characters or the first dot and what follows the dot at
three, and `match_filename` reads both fields up to the first space. The two agree on a name
exactly when nothing is cut and no space or lone dot is in the way.
-/

set_option autoImplicit false

namespace Vlsmc.StorableNames
open Vlsmc.Fat16Layout Vlsmc.Fat16Names

/-- Up to eight characters without spaces and dots, and, behind a dot, one to three without
spaces. The first byte is not the mark of a deleted entry. -/
structure Storable (name : List UInt8) : Prop where
  parts : ∃ base ext, name = base++(if ext = [] then [] else dot::ext) ∧
    base.length ≤ 8 ∧ ext.length ≤ 3 ∧ (∀ c ∈ base, c ≠ space ∧ c ≠ dot) ∧ space ∉ ext ∧
    base.head? ≠ some 0xE5

section Characters

theorem upper_low {c k : UInt8} (hk : k.toNat < 65) : upper c = k ↔ c = k := by
  have hc := upper_toNat c
  rw [← UInt8.toNat_inj, ← UInt8.toNat_inj, hc]
  split_ifs <;> omega

theorem upper_space {c : UInt8} : upper c = space ↔ c = space := upper_low (by decide)

theorem upper_deleted {c : UInt8} : upper c = 0xE5 ↔ c = 0xE5 :=
  ⟨fun h => by_contra fun hc => upper_high c hc h, fun h => by rw [h]; decide⟩

/-- A field is read up to its first space. -/
theorem takeWhile_field (n : ℕ) {l : List UInt8} (h : l.length ≤ n) :
    (List.ofFn (padded n (l.map upper))).takeWhile (· ≠ space) =
      (l.takeWhile (· ≠ space)).map upper := by
  rw [ofFn_padded n _ (by simpa using h)]
  clear h
  generalize n-(l.map upper).length = k
  induction l with
  | nil => cases k <;> simp [List.replicate_succ]
  | cons c l ih =>
    rw [List.map_cons, List.cons_append]
    by_cases hc : c = space
    · rw [List.takeWhile_cons_of_neg (by simp [upper_space, hc]),
        List.takeWhile_cons_of_neg (by simp [hc])]
      rfl
    · rw [List.takeWhile_cons_of_pos (by simp [upper_space, hc]),
        List.takeWhile_cons_of_pos (by simp [hc]), ih, List.map_cons]

end Characters

section Parts

/-- The characters that `format_83_name` takes for the extension. -/
def extPart : List UInt8 → List UInt8
  | [] => []
  | c::cs => if c = dot then cs.take 3 else []

/-- The first loop splits the name: at its end, before a dot, or at the end of the field. -/
theorem baseChars_parts (room : ℕ) (name : List UInt8) : ∃ base rest,
    baseChars room name = (base.map upper, rest) ∧ name = base++rest ∧ base.length ≤ room ∧
      dot ∉ base ∧ (rest = [] ∨ (∃ cs, rest = dot::cs) ∨
        base.length = room ∧ rest ≠ [] ∧ extPart rest = []) := by
  induction name generalizing room with
  | nil => exact ⟨[], [], by cases room <;> rfl, rfl, by simp, by simp, Or.inl rfl⟩
  | cons c cs ih =>
    cases room with
    | zero =>
      refine ⟨[], c::cs, rfl, rfl, by simp, by simp, Or.inr ?_⟩
      by_cases hc : c = dot
      · exact Or.inl ⟨cs, by rw [hc]⟩
      · exact Or.inr ⟨rfl, by simp, by rw [extPart, if_neg hc]⟩
    | succ room =>
      rw [baseChars]
      by_cases hc : c = dot
      · rw [if_pos hc]
        exact ⟨[], c::cs, rfl, rfl, by simp, by simp, Or.inr (Or.inl ⟨cs, by rw [hc]⟩)⟩
      · rw [if_neg hc]
        obtain ⟨base, rest, hb, rfl, hlen, hdot, hrest⟩ := ih room
        refine ⟨c::base, rest, by rw [hb]; rfl, rfl, by simpa using hlen, ?_, ?_⟩
        · simpa [eq_comm] using ⟨hc, hdot⟩
        · simpa using hrest

theorem extChars_part (rest : List UInt8) : extChars rest = (extPart rest).map upper := by
  cases rest with
  | nil => rfl
  | cons c cs =>
    rw [extChars, extPart]
    split_ifs <;> simp

theorem extPart_length (rest : List UInt8) : (extPart rest).length ≤ 3 := by
  cases rest with
  | nil => simp [extPart]
  | cons c cs =>
    rw [extPart]
    split_ifs
    · rw [List.length_take]
      omega
    · simp

theorem extPart_sublist (rest : List UInt8) : (extPart rest).Sublist rest := by
  cases rest with
  | nil => exact List.Sublist.refl _
  | cons c cs =>
    rw [extPart]
    split_ifs
    · exact (List.take_sublist _ _).trans (List.sublist_cons_self _ _)
    · exact List.nil_sublist _

/-- What a lookup reads from the two fields of an entry. -/
def readParts (base ext : List UInt8) : List UInt8 :=
  base.takeWhile (· ≠ space)++
    if ext.headD space = space then [] else dot::ext.takeWhile (· ≠ space)

variable {name base rest : List UInt8}

theorem decodedName_parts (h0 : 0 ∉ name) (hbase : baseChars 8 name = (base.map upper, rest))
    (hname : name = base++rest) (hlen : base.length ≤ 8) (e : DirEntry) :
    decodedName (format83Name name e) = (readParts base (extPart rest)).map upper := by
  have hudot : upper dot = dot := by decide
  have hhead : padded 3 ((extPart rest).map upper) 0 = upper ((extPart rest).headD space) := by
    have hz := padded_zero ((extPart rest).map upper) (show 0 < 3 by decide)
    change padded 3 ((extPart rest).map upper) 0 = _ at hz
    rw [hz]
    cases extPart rest <;> rfl
  have hclean : cleanFat (format83Name name e) = (readParts base (extPart rest)).map upper := by
    simp only [cleanFat, format83Name, hbase, extChars_part]
    rw [takeWhile_field 8 hlen, takeWhile_field 3 (extPart_length rest), hhead, readParts,
      List.map_append]
    congr 1
    by_cases hs : (extPart rest).headD space = space
    · rw [if_pos hs, if_neg (not_not.mpr (upper_space.mpr hs))]
      rfl
    · rw [if_neg hs, if_pos fun h => hs (upper_space.mp h), List.map_cons, hudot]
  rw [decodedName, hclean, cString_valid]
  intro c hc
  obtain ⟨a, ha, rfl⟩ := List.mem_map.mp hc
  rw [Ne, upper_low (by decide)]
  rintro rfl
  -- every character comes from the name
  rw [readParts, List.mem_append] at ha
  rcases ha with ha | ha
  · exact h0 (hname ▸ List.mem_append_left _ ((List.takeWhile_sublist _).subset ha))
  · split_ifs at ha
    · simp at ha
    · rcases List.mem_cons.mp ha with ha | ha
      · exact absurd ha (by decide)
      · exact h0 (hname ▸ List.mem_append_right _
          ((extPart_sublist rest).subset ((List.takeWhile_sublist _).subset ha)))

/-- A field that is read in full has no space. -/
theorem no_space_of_full {l : List UInt8} (h : l.length ≤ (l.takeWhile (· ≠ space)).length) :
    space ∉ l := by
  have hall := (List.takeWhile_sublist (l := l) (· ≠ space)).eq_of_length_le h
  intro hs
  have hc := List.takeWhile_eq_self_iff.mp hall space hs
  simp at hc

theorem takeWhile_length (l : List UInt8) : (l.takeWhile (· ≠ space)).length ≤ l.length :=
  (List.takeWhile_sublist _).length_le

/-- Without spaces nothing is lost in the fields. -/
theorem readParts_all {base ext : List UInt8} (hbase : space ∉ base) (hext : space ∉ ext) :
    readParts base ext = base++if ext = [] then [] else dot::ext := by
  have hall : ∀ l : List UInt8, space ∉ l → l.takeWhile (· ≠ space) = l := by
    intro l hl
    apply List.takeWhile_eq_self_iff.mpr
    intro c hc
    have hne : c ≠ space := fun h => hl (h ▸ hc)
    simpa using hne
  rw [readParts, hall base hbase, hall ext hext]
  cases ext with
  | nil => rfl
  | cons c ext =>
    have hc : ¬ (c::ext).headD space = space := fun h => hext (h ▸ List.mem_cons_self)
    rw [if_neg hc, if_neg (by simp)]

end Parts

section Storable

variable {name : List UInt8}

theorem format83_byte {base rest : List UInt8}
    (hbase : baseChars 8 name = (base.map upper, rest)) (e : DirEntry) :
    (format83Name name e).name 0 = (base.map upper).headD space := by
  rw [← padded_zero (base.map upper) (show 0 < 8 by decide)]
  simp only [format83Name, hbase]
  rfl

theorem format83_deleted {base rest : List UInt8}
    (hbase : baseChars 8 name = (base.map upper, rest)) (e : DirEntry) :
    (format83Name name e).isDeleted ↔ base.head? = some 0xE5 := by
  rw [DirEntry.isDeleted, format83_byte hbase]
  cases base with
  | nil => exact iff_of_false (by decide) (by simp)
  | cons c base => simp [upper_deleted]

theorem format83_not_end (h0 : 0 ∉ name) (e : DirEntry) : ¬ (format83Name name e).isEnd := by
  obtain ⟨base, rest, hbase, hname, -, -, -⟩ := baseChars_parts 8 name
  rw [DirEntry.isEnd, format83_byte hbase]
  cases base with
  | nil => decide
  | cons c base =>
    have hc : c ≠ 0 := fun h => h0 (by simp [hname, h])
    simpa [upper_low (k := 0) (by decide)] using hc

/-- The 8.3 form of a name reads as the name, and is not that of a deleted entry, exactly for the
names that it can hold. -/
theorem storable_iff (h0 : 0 ∉ name) (e : DirEntry) : Storable name ↔
    ¬ (format83Name name e).isDeleted ∧ entryName (format83Name name e) = name.map upper := by
  constructor
  · rintro ⟨base, ext, hname, h8, h3, hb, he, hE5⟩
    have hdot : dot ∉ base := fun h => (hb dot h).2 rfl
    have hbase := baseChars_base 8 base (if ext = [] then [] else dot::ext) h8 hdot
      (by by_cases hx : ext = [] <;> simp [hx])
    rw [← hname] at hbase
    have hext : extPart (if ext = [] then [] else dot::ext) = ext := by
      by_cases hx : ext = []
      · simp [hx, extPart]
      · simp [hx, extPart, List.take_of_length_le h3]
    rw [format83_deleted hbase, entryName, decodedName_parts h0 hbase hname h8,
      map_upper_map_upper, hext, readParts_all (fun h => (hb space h).1 rfl) he, ← hname]
    exact ⟨hE5, rfl⟩
  · rintro ⟨hdel, hread⟩
    obtain ⟨base, rest, hbase, hname, h8, hdot, hrest⟩ := baseChars_parts 8 name
    rw [format83_deleted hbase] at hdel
    rw [entryName, decodedName_parts h0 hbase hname h8, map_upper_map_upper] at hread
    have hlen : (readParts base (extPart rest)).length = name.length := by
      simpa using congrArg List.length hread
    rw [hname, List.length_append, readParts, List.length_append] at hlen
    have hb := takeWhile_length base
    have hmem : ∀ {l : List UInt8}, space ∉ l → ∀ c ∈ l, c ≠ space := fun hl c hc h => hl (h ▸ hc)
    have hne : ∀ c ∈ base, c ≠ dot := fun c hc h => hdot (h ▸ hc)
    rcases hrest with rfl | ⟨cs, rfl⟩ | ⟨_, hcut, hext⟩
    · have hsp : space ∉ base := no_space_of_full (by simpa [extPart] using hlen.ge)
      exact ⟨base, [], by simpa using hname, h8, by simp,
        fun c hc => ⟨hmem hsp c hc, hne c hc⟩, by simp, hdel⟩
    · rw [extPart, if_pos rfl, List.length_cons] at hlen
      have he := takeWhile_length (cs.take 3)
      have h3 := List.length_take_le 3 cs
      have hle := List.length_take_le' 3 cs
      by_cases hs : (cs.take 3).headD space = space
      · rw [if_pos hs, List.length_nil] at hlen
        omega
      · rw [if_neg hs, List.length_cons] at hlen
        have hsp : space ∉ base := no_space_of_full (by omega)
        have hcs : space ∉ cs.take 3 := no_space_of_full (by omega)
        rw [List.take_of_length_le (by omega)] at hs hcs
        have hcne : cs ≠ [] := by
          rintro rfl
          exact hs rfl
        exact ⟨base, cs, by rw [if_neg hcne]; exact hname, h8, by omega,
          fun c hc => ⟨hmem hsp c hc, hne c hc⟩, hcs, hdel⟩
    · have hpos := List.length_pos_iff.mpr hcut
      rw [hext] at hlen
      simp only [List.headD_nil, if_true, List.length_nil] at hlen
      omega

end Storable

end Vlsmc.StorableNames
