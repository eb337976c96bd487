import Vlsmc.Fat16Layout
import Mathlib.Data.List.OfFn
import Mathlib.Data.List.TakeWhile
import Mathlib.Data.List.TakeDrop

/-!
# File names in directory entries

A C string is the list of its bytes before the terminating NUL. An entry
stores the upper-cased base and extension padded with spaces, and a lookup
compares the decoded entry with the requested name ignoring case. For a valid
8.3 name the two directions agree: the entry written for the name decodes to
the upper-cased name.
-/

set_option autoImplicit false

namespace Vlsmc.Fat16Names
open Vlsmc.Fat16Layout

def space : UInt8 := 0x20
def dot : UInt8 := 0x2E
def slash : UInt8 := 0x2F

/-- `if (c >= 'a' && c <= 'z') c -= 32;` -/
def upper (c : UInt8) : UInt8 := if 0x61 ≤ c ∧ c ≤ 0x7A then c-32 else c

/-- The bytes before the first NUL. -/
def cString (l : List UInt8) : List UInt8 := l.takeWhile (· ≠ 0)

/-- The first loop of `format_83_name`: at most `room` bytes up to a dot, and
the rest of the name. -/
def baseChars : ℕ → List UInt8 → List UInt8 × List UInt8
  | 0, cs => ([], cs)
  | _+1, [] => ([], [])
  | room+1, c::cs =>
    if c = dot then ([], c::cs)
    else (upper c::(baseChars room cs).1, (baseChars room cs).2)

def extChars : List UInt8 → List UInt8
  | [] => []
  | c::cs => if c = dot then (cs.take 3).map upper else []

def padded (n : ℕ) (l : List UInt8) : Fin n → UInt8 := fun k => l.getD k space

/-- `format_83_name` writes the eleven bytes of the name and extension fields. -/
def format83Name (name : List UInt8) (e : DirEntry) : DirEntry :=
  { e with
    name := padded 8 (baseChars 8 name).1
    ext := padded 3 (extChars (baseChars 8 name).2) }

/-- The buffer `clean_fat` of `match_filename`. -/
def cleanFat (e : DirEntry) : List UInt8 :=
  (List.ofFn e.name).takeWhile (· ≠ space) ++
    if e.ext 0 ≠ space then dot::(List.ofFn e.ext).takeWhile (· ≠ space) else []

def decodedName (e : DirEntry) : List UInt8 := cString (cleanFat e)

/-- The comparison loop of `match_filename`. -/
def sameName : List UInt8 → List UInt8 → Bool
  | a::as, b::bs => if upper a ≠ upper b then false else sameName as bs
  | [], [] => true
  | _, _ => false

def matchFilename (e : DirEntry) (name : List UInt8) : Bool := sameName (decodedName e) name

theorem sameName_iff (as bs : List UInt8) :
    sameName as bs = true ↔ as.map upper = bs.map upper := by
  induction as generalizing bs with
  | nil => cases bs <;> simp [sameName]
  | cons a as ih =>
    cases bs with
    | nil => simp [sameName]
    | cons b bs => by_cases h : upper a = upper b <;> simp [sameName, h, ih]

theorem matchFilename_iff (e : DirEntry) (name : List UInt8) :
    matchFilename e name = true ↔ (decodedName e).map upper = name.map upper :=
  sameName_iff _ _

/-- The name by which two entries of a directory are told apart. -/
def entryName (e : DirEntry) : List UInt8 := (decodedName e).map upper

/-- The entries `.` and `..` of a subdirectory. -/
def isDot (e : DirEntry) : Prop := decodedName e = [dot] ∨ decodedName e = [dot, dot]

instance (e : DirEntry) : Decidable (isDot e) := inferInstanceAs (Decidable (_ ∨ _))

/-- An entry that a lookup can return and that is not `.` or `..`. -/
structure Visible (e : DirEntry) : Prop where
  used : ¬ e.isEnd
  kept : ¬ e.isDeleted
  shown : e.attributes &&& attrHiddenMask = 0
  named : ¬ isDot e

def validChar (c : UInt8) : Prop := c ≠ 0 ∧ c ≠ space ∧ c ≠ dot ∧ c ≠ slash

instance (c : UInt8) : Decidable (validChar c) := inferInstanceAs (Decidable (_ ∧ _))

/-- One to eight base bytes and an optional extension of one to three bytes,
without spaces, dots, slashes or a leading `0xE5`. -/
structure ValidName (name : List UInt8) : Prop where
  parts : ∃ base ext, name = base++(if ext = [] then [] else dot::ext) ∧
    1 ≤ base.length ∧ base.length ≤ 8 ∧ ext.length ≤ 3 ∧
    (∀ c ∈ base, validChar c) ∧ (∀ c ∈ ext, validChar c) ∧ base.head? ≠ some 0xE5

theorem upper_toNat (c : UInt8) :
    (upper c).toNat = if 97 ≤ c.toNat ∧ c.toNat ≤ 122 then c.toNat-32 else c.toNat := by
  have hc := c.toNat_lt
  by_cases h : 97 ≤ c.toNat ∧ c.toNat ≤ 122
  · have h' : (0x61:UInt8) ≤ c ∧ c ≤ 0x7A := by
      simpa [UInt8.le_iff_toNat_le] using h
    rw [upper, if_pos h', if_pos h, UInt8.toNat_sub]
    simp
    omega
  · have h' : ¬ ((0x61:UInt8) ≤ c ∧ c ≤ 0x7A) := by
      simpa [UInt8.le_iff_toNat_le] using h
    rw [upper, if_neg h', if_neg h]

theorem upper_upper (c : UInt8) : upper (upper c) = upper c := by
  apply UInt8.toNat_inj.mp
  rw [upper_toNat (upper c), upper_toNat c]
  split_ifs <;> omega

theorem upper_valid (c : UInt8) (h : validChar c) : validChar (upper c) := by
  have hn : ∀ k : UInt8, k.toNat < 65 → c ≠ k → upper c ≠ k := by
    intro k hk hck heq
    have hu := congrArg UInt8.toNat heq
    have hc : c.toNat ≠ k.toNat := fun he => hck (UInt8.toNat_inj.mp he)
    rw [upper_toNat] at hu
    split_ifs at hu <;> omega
  exact ⟨hn 0 (by decide) h.1, hn space (by decide) h.2.1, hn dot (by decide) h.2.2.1,
    hn slash (by decide) h.2.2.2⟩

theorem upper_high (c : UInt8) (h : c ≠ 0xE5) : upper c ≠ 0xE5 := by
  intro heq
  have hu := congrArg UInt8.toNat heq
  have hc : c.toNat ≠ 229 := fun he => h (UInt8.toNat_inj.mp he)
  rw [upper_toNat] at hu
  have he : (0xE5:UInt8).toNat = 229 := rfl
  split_ifs at hu <;> omega

theorem baseChars_base (room : ℕ) (base rest : List UInt8) (hlen : base.length ≤ room)
    (hdot : dot ∉ base) (hr : rest = [] ∨ ∃ cs, rest = dot::cs) :
    baseChars room (base++rest) = (base.map upper, rest) := by
  induction base generalizing room with
  | nil =>
    rcases hr with rfl | ⟨cs, rfl⟩ <;> cases room <;> simp [baseChars]
  | cons c base ih =>
    cases room with
    | zero => simp at hlen
    | succ room =>
      rw [List.mem_cons, not_or] at hdot
      simp only [List.cons_append, baseChars, if_neg (Ne.symm hdot.1)]
      rw [ih room (by simpa using hlen) hdot.2]
      rfl

theorem ofFn_padded (n : ℕ) (l : List UInt8) (h : l.length ≤ n) :
    List.ofFn (padded n l) = l++List.replicate (n-l.length) space := by
  apply List.ext_getElem
  · simp
    omega
  · intro k hk hk'
    by_cases hl : k < l.length
    · simp [padded, hl]
    · simp [padded, hl, List.getElem_append_right (Nat.le_of_not_lt hl)]

theorem takeWhile_padded (n : ℕ) (l : List UInt8) (h : l.length ≤ n)
    (hv : ∀ c ∈ l, validChar c) :
    (List.ofFn (padded n l)).takeWhile (· ≠ space) = l := by
  rw [ofFn_padded n l h]
  rw [List.takeWhile_append_of_pos (by simpa using fun c hc => (hv c hc).2.1)]
  cases n-l.length <;> simp [List.replicate_succ]

theorem cString_valid (l : List UInt8) (h : ∀ c ∈ l, c ≠ 0) : cString l = l := by
  apply List.takeWhile_eq_self_iff.mpr
  simpa using h

theorem padded_zero {n : ℕ} (l : List UInt8) (h : 0 < n) :
    padded n l ⟨0,h⟩ = l.headD space := by
  cases l <;> rfl

/-- The fields of a base and an extension decode to the two with a dot between them. -/
theorem decodedName_padded {e : DirEntry} {base ext : List UInt8} (hname : e.name = padded 8 base)
    (hext : e.ext = padded 3 ext) (h8 : base.length ≤ 8) (h3 : ext.length ≤ 3)
    (hb : ∀ c ∈ base, validChar c) (he : ∀ c ∈ ext, validChar c) :
    decodedName e = base++(if ext = [] then [] else dot::ext) := by
  have hclean : cleanFat e = base++(if ext = [] then [] else dot::ext) := by
    rw [cleanFat, hname, hext, takeWhile_padded 8 _ h8 hb, takeWhile_padded 3 _ h3 he]
    congr 1
    have hz := padded_zero ext (show 0 < 3 by decide)
    change padded 3 ext 0 = _ at hz
    rw [hz]
    cases ext with
    | nil => simp
    | cons c cs => simpa using (he c (by simp)).2.1
  rw [decodedName, hclean, cString_valid]
  intro c hc
  rcases List.mem_append.mp hc with hc | hc
  · exact (hb c hc).1
  · by_cases hx : ext = []
    · simp [hx] at hc
    · simp only [hx, if_false] at hc
      rcases List.mem_cons.mp hc with rfl | hc
      · decide
      · exact (he c hc).1

/-- The entry written for a valid name decodes to the upper-cased name. -/
theorem decodedName_format83 (name : List UInt8) (hn : ValidName name) (e : DirEntry) :
    decodedName (format83Name name e) = name.map upper := by
  obtain ⟨base, ext, rfl, h1, h8, h3, hb, he, -⟩ := hn.parts
  have hbu : ∀ c ∈ base.map upper, validChar c := by
    simpa using fun c hc => upper_valid c (hb c hc)
  have heu : ∀ c ∈ ext.map upper, validChar c := by
    simpa using fun c hc => upper_valid c (he c hc)
  have hbase := baseChars_base 8 base (if ext = [] then [] else dot::ext) h8
    (fun h => (hb dot h).2.2.1 rfl) (by by_cases hx : ext = [] <;> simp [hx])
  have hext : extChars (if ext = [] then [] else dot::ext) = ext.map upper := by
    by_cases hx : ext = []
    · simp [hx, extChars]
    · simp [hx, extChars, List.take_of_length_le h3]
  have hudot : upper dot = dot := by decide
  have hname : (format83Name (base++(if ext = [] then [] else dot::ext)) e).name =
      padded 8 (base.map upper) := by
    simp only [format83Name, hbase]
  have hfield : (format83Name (base++(if ext = [] then [] else dot::ext)) e).ext =
      padded 3 (ext.map upper) := by
    simp only [format83Name, hbase, hext]
  rw [decodedName_padded hname hfield (by simpa using h8) (by simpa using h3) hbu heu]
  by_cases hx : ext = [] <;> simp [hx, hudot]

theorem map_upper_map_upper (l : List UInt8) : (l.map upper).map upper = l.map upper := by
  simp [upper_upper]

theorem entryName_format83 (name : List UInt8) (hn : ValidName name) (e : DirEntry) :
    entryName (format83Name name e) = name.map upper := by
  rw [entryName, decodedName_format83 name hn, map_upper_map_upper]

theorem format83_first (name : List UInt8) (hn : ValidName name) (e : DirEntry) :
    (format83Name name e).name 0 ≠ 0x00 ∧ (format83Name name e).name 0 ≠ 0xE5 := by
  obtain ⟨base, ext, rfl, h1, h8, -, hb, -, hE5⟩ := hn.parts
  have hbase := baseChars_base 8 base (if ext = [] then [] else dot::ext) h8
    (fun h => (hb dot h).2.2.1 rfl) (by by_cases hx : ext = [] <;> simp [hx])
  have hz := padded_zero (base.map upper) (show 0 < 8 by decide)
  change padded 8 (base.map upper) 0 = _ at hz
  simp only [format83Name, hbase, hz]
  cases base with
  | nil => simp at h1
  | cons c base =>
    simp only [List.map_cons, List.headD_cons]
    exact ⟨(upper_valid c (hb c (by simp))).1, upper_high c (by simpa using hE5)⟩

theorem format83_not_dot (name : List UInt8) (hn : ValidName name) (e : DirEntry) :
    ¬ isDot (format83Name name e) := by
  rw [isDot, decodedName_format83 name hn]
  obtain ⟨base, ext, rfl, h1, -, -, hb, -, -⟩ := hn.parts
  cases base with
  | nil => simp at h1
  | cons c base =>
    have hc := (upper_valid c (hb c (by simp))).2.2.1
    simp [hc]

/-- The entry written for a valid name with plain attributes is visible. -/
theorem format83_visible (name : List UInt8) (hn : ValidName name) (e : DirEntry)
    (ha : e.attributes &&& attrHiddenMask = 0) : Visible (format83Name name e) :=
  ⟨(format83_first name hn e).1, (format83_first name hn e).2, ha, format83_not_dot name hn e⟩

end Vlsmc.Fat16Names
