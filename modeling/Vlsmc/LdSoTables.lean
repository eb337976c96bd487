import Vlsmc.LdSo
import Vlsmc.WordPatches

/-!
# Reading the tables of loaded objects

The linker decides what to write from tables in the memory it writes to. Two
memories that agree on the bytes of the tables lead it to the same decisions, and
strings that end inside their table are read to their end.
-/

set_option autoImplicit false

namespace Vlsmc.LdSoTables
open Vlsmc.ByteMemory Vlsmc.Words Vlsmc.LdSo

variable {m m' : Memory} {K : ℕ → Prop} {fuel : ℕ}

/-- The memories hold the same bytes where `K` holds. -/
def AgreeOn (K : ℕ → Prop) (m m' : Memory) : Prop := ∀ k, K k → m' k = m k

/-- All bytes of a range satisfy `K`. -/
def Within (K : ℕ → Prop) (a n : ℕ) : Prop := ∀ k, a ≤ k → k < a+n → K k

theorem Within.mono {a n b l : ℕ} (h : Within K a n) (hb : a ≤ b) (hl : b+l ≤ a+n) :
    Within K b l := fun k _ _ => h k (by omega) (by omega)

theorem AgreeOn.read32 {a : ℕ} (h : AgreeOn K m m') (ha : Within K a 4) :
    read32 m' a = read32 m a := read32_congr fun k h0 h1 => h k (ha k h0 h1)

/-! ## Dynamic tables -/

theorem entriesFrom_succ (d : ℕ) : entriesFrom m (fuel+1) d =
    if read32 m d = 0 then some []
    else (entriesFrom m fuel (d+8)).map ((read32 m d, read32 m (d+4))::·) := rfl

theorem entriesFrom_congr {d : ℕ} {es : List (ℕ × ℕ)} (h : AgreeOn K m m')
    (hd : Within K d (8*(es.length+1))) (he : entriesFrom m fuel d = some es) :
    entriesFrom m' fuel d = some es := by
  induction fuel generalizing d es with
  | zero => cases he
  | succ fuel ih =>
    rw [entriesFrom_succ] at he ⊢
    rw [h.read32 (hd.mono le_rfl (by omega))]
    split at he
    · next h0 =>
      cases he
      rw [if_pos h0]
    · next h0 =>
      rw [if_neg h0]
      obtain ⟨rest, hrest, rfl⟩ := Option.map_eq_some_iff.mp he
      rw [List.length_cons] at hd
      rw [ih (hd.mono (by omega) (by omega)) hrest,
        h.read32 (a := d+4) (hd.mono (by omega) (by omega))]
      rfl

/-- The entries behind the first. -/
theorem entriesFrom_cons {d : ℕ} {es : List (ℕ × ℕ)} (h0 : read32 m d ≠ 0)
    (he : entriesFrom m (fuel+1) d = some es) :
    ∃ rest, entriesFrom m fuel (d+8) = some rest ∧
      es = (read32 m d, read32 m (d+4))::rest := by
  rw [entriesFrom_succ] at he
  rw [if_neg h0] at he
  obtain ⟨rest, hrest, rfl⟩ := Option.map_eq_some_iff.mp he
  exact ⟨rest, hrest, rfl⟩

/-! ## Strings -/

/-- The byte a pointer stands at may be relied on. -/
def CStr.kept (K : ℕ → Prop) : CStr → Prop
  | .ptr p => K p
  | .literal _ => True

/-- The string ends within `n` bytes, all of which may be relied on. -/
def Ends (m : Memory) (K : ℕ → Prop) : ℕ → CStr → Prop
  | 0, _ => False
  | n+1, c => CStr.kept K c ∧ (c.byte m = 0 ∨ Ends m K n c.next)

theorem AgreeOn.byte {c : CStr} (h : AgreeOn K m m') (hc : CStr.kept K c) :
    c.byte m' = c.byte m := by
  cases c with
  | ptr p => exact h p hc
  | literal s => rfl

theorem Ends.mono {n l : ℕ} {c : CStr} (h : Ends m K n c) (hl : n ≤ l) : Ends m K l c := by
  induction n generalizing c l with
  | zero => cases h
  | succ n ih =>
    obtain ⟨l, rfl⟩ : ∃ l', l = l'+1 := ⟨l-1, by omega⟩
    exact ⟨h.1, h.2.imp_right fun h => ih h (by omega)⟩

/-- A string table whose last byte is null ends every string in it. -/
theorem ends_of_table {p a n : ℕ} (h0 : a ≤ p) (hp : p < a+n) (hn : m (a+n-1) = 0)
    (hk : Within K a n) : Ends m K (a+n-p) (.ptr p) := by
  obtain ⟨l, hl⟩ : ∃ l, a+n-p = l+1 := ⟨a+n-p-1, by omega⟩
  rw [hl]
  induction l generalizing p with
  | zero =>
    refine ⟨hk p h0 hp, .inl ?_⟩
    rw [show a+n-1 = p by omega] at hn
    exact hn
  | succ l ih => exact ⟨hk p h0 hp, .inr (ih (by omega) (by omega) (by omega))⟩

theorem ends_literal (s : List UInt8) : Ends m K (s.length+1) (.literal s) := by
  induction s with
  | nil => exact ⟨trivial, .inl rfl⟩
  | cons b s ih => exact ⟨trivial, .inr ih⟩

theorem strEq_succ (a b : CStr) : strEq m (fuel+1) a b =
    if a.byte m ≠ 0 ∧ b.byte m ≠ 0 then
      if a.byte m ≠ b.byte m then some false else strEq m fuel a.next b.next
    else some (a.byte m == b.byte m) := rfl

theorem strEq_congr {a b : CStr} {n l : ℕ} (h : AgreeOn K m m') (ha : Ends m K n a)
    (hb : Ends m K l b) : strEq m' fuel a b = strEq m fuel a b := by
  induction fuel generalizing a b n l with
  | zero => rfl
  | succ fuel ih =>
    cases n with
    | zero => cases ha
    | succ n =>
    cases l with
    | zero => cases hb
    | succ l =>
    rw [strEq_succ, strEq_succ, h.byte ha.1, h.byte hb.1]
    by_cases hz : a.byte m ≠ 0 ∧ b.byte m ≠ 0
    · rw [if_pos hz, if_pos hz, ih (ha.2.resolve_left hz.1) (hb.2.resolve_left hz.2)]
    · rw [if_neg hz, if_neg hz]

theorem strEq_isSome {a b : CStr} (ha : Ends m K fuel a) : (strEq m fuel a b).isSome := by
  induction fuel generalizing a b with
  | zero => cases ha
  | succ fuel ih =>
    rw [strEq_succ]
    split
    · next hz =>
      split
      · rfl
      · exact ih (ha.2.resolve_left hz.1)
    · rfl

theorem bytesOf_congr {p n l : ℕ} (h : AgreeOn K m m') (hp : Ends m K l (.ptr p)) :
    bytesOf m' n p = bytesOf m n p := by
  induction n generalizing p l with
  | zero => rfl
  | succ n ih =>
    cases l with
    | zero => cases hp
    | succ l =>
    show (if m' p = 0 then [] else m' p::bytesOf m' n (p+1)) =
      if m p = 0 then [] else m p::bytesOf m n (p+1)
    rw [h p hp.1]
    by_cases hz : m p = 0
    · rw [if_pos hz, if_pos hz]
    · rw [if_neg hz, if_neg hz, ih (hp.2.resolve_left hz)]

/-- The bytes of a string before its null byte. -/
def Spells (m : Memory) : CStr → List UInt8 → Prop
  | c, [] => c.byte m = 0
  | c, b::s => c.byte m = b ∧ b ≠ 0 ∧ Spells m c.next s

theorem Ends.spells {n : ℕ} {c : CStr} (h : Ends m K n c) : ∃ s, Spells m c s := by
  induction n generalizing c with
  | zero => cases h
  | succ n ih =>
    by_cases h0 : c.byte m = 0
    · exact ⟨[], h0⟩
    · obtain ⟨s, hs⟩ := ih (h.2.resolve_left h0)
      exact ⟨c.byte m::s, rfl, h0, hs⟩

theorem spells_unique {c : CStr} {s t : List UInt8} (hs : Spells m c s) (ht : Spells m c t) :
    s = t := by
  induction s generalizing c t with
  | nil =>
    cases t with
    | nil => rfl
    | cons b t => exact absurd (ht.1.symm.trans hs) ht.2.1
  | cons a s ih =>
    cases t with
    | nil => exact absurd (hs.1.symm.trans ht) hs.2.1
    | cons b t => rw [← hs.1, ← ht.1, ih hs.2.2 ht.2.2]

/-- Comparing two strings compares what they spell. -/
theorem strEq_spells {a b : CStr} {s t : List UInt8} {r : Bool} (ha : Spells m a s)
    (hb : Spells m b t) (h : strEq m fuel a b = some r) : r = true ↔ s = t := by
  induction fuel generalizing a b s t with
  | zero => cases h
  | succ fuel ih =>
    rw [strEq_succ] at h
    cases s with
    | nil =>
      have h0 : a.byte m = 0 := ha
      rw [if_neg (by simp [h0])] at h
      cases h
      cases t with
      | nil => simp [h0, show b.byte m = 0 from hb]
      | cons c t => simp [h0, hb.1, hb.2.1.symm]
    | cons c s =>
      cases t with
      | nil =>
        have h0 : b.byte m = 0 := hb
        rw [if_neg (by simp [h0])] at h
        cases h
        simp [h0, ha.1, ha.2.1]
      | cons d t =>
        rw [ha.1, hb.1, if_pos ⟨ha.2.1, hb.2.1⟩] at h
        by_cases hcd : c = d
        · rw [if_neg (not_not.mpr hcd)] at h
          rw [ih ha.2.2 hb.2.2 h, List.cons.injEq, and_iff_right hcd]
        · rw [if_pos hcd] at h
          cases h
          simp [hcd]

/-! ## Symbols -/

/-- The symbols of an object and their names may be relied on. -/
structure SymbolsKept (fuel : ℕ) (m : Memory) (K : ℕ → Prop) (obj : LoadedObject) : Prop where
  table : Within K obj.symtab (16*obj.nchain)
  names : ∀ i < obj.nchain, Ends m K fuel (obj.nameOf m i)

variable {obj : LoadedObject} {objs : List LoadedObject} {name : CStr}

theorem sym_congr {i : ℕ} (h : AgreeOn K m m') (ho : SymbolsKept fuel m K obj)
    (hi : i < obj.nchain) : obj.sym m' i = obj.sym m i := by
  have hw : Within K (obj.symtab+16*i) 16 := ho.table.mono (by omega) (by omega)
  unfold LoadedObject.sym symAt read16
  rw [h.read32 (hw.mono le_rfl (by omega)), h.read32 (hw.mono (by omega) (by omega)),
    h _ (hw _ (by omega) (by omega)), h _ (hw _ (by omega) (by omega)),
    h _ (hw _ (by omega) (by omega))]

theorem nameOf_congr {i : ℕ} (h : AgreeOn K m m') (ho : SymbolsKept fuel m K obj)
    (hi : i < obj.nchain) : obj.nameOf m' i = obj.nameOf m i := by
  unfold LoadedObject.nameOf
  rw [sym_congr h ho hi]

theorem searchSymbols_cons (i : ℕ) (is : List ℕ) : searchSymbols fuel m obj name (i::is) =
    if (obj.sym m i).exported then
      match strEq m fuel (obj.nameOf m i) name with
      | none => none
      | some true => some (u32 ((obj.sym m i).stValue+obj.loadBias))
      | some false => searchSymbols fuel m obj name is
    else searchSymbols fuel m obj name is := rfl

theorem searchSymbols_congr {is : List ℕ} (h : AgreeOn K m m') (ho : SymbolsKept fuel m K obj)
    (hn : Ends m K fuel name) (hi : ∀ i ∈ is, i < obj.nchain) :
    searchSymbols fuel m' obj name is = searchSymbols fuel m obj name is := by
  induction is with
  | nil => rfl
  | cons i is ih =>
    have hi0 := hi i List.mem_cons_self
    rw [searchSymbols_cons, searchSymbols_cons, nameOf_congr h ho hi0, sym_congr h ho hi0,
      strEq_congr h (ho.names i hi0) hn, ih fun j hj => hi j (List.mem_cons_of_mem i hj)]

theorem searchSymbols_isSome {is : List ℕ} (ho : SymbolsKept fuel m K obj)
    (hi : ∀ i ∈ is, i < obj.nchain) : (searchSymbols fuel m obj name is).isSome := by
  induction is with
  | nil => rfl
  | cons i is ih =>
    have ih' := ih fun j hj => hi j (List.mem_cons_of_mem i hj)
    obtain ⟨b, hb⟩ := Option.isSome_iff_exists.mp
      (strEq_isSome (b := name) (ho.names i (hi i List.mem_cons_self)))
    rw [searchSymbols_cons, hb]
    cases b <;> split <;> first | rfl | exact ih'

theorem mem_indices {i n : ℕ} : i ∈ List.range' 1 (n-1) ↔ 1 ≤ i ∧ i < n := by
  rw [List.mem_range'_1]
  omega

/-- Objects without symbols or with symbols that may be relied on. -/
def LookupKept (fuel : ℕ) (m : Memory) (K : ℕ → Prop) (obj : LoadedObject) : Prop :=
  obj.symtab ≠ 0 → obj.strtab ≠ 0 → SymbolsKept fuel m K obj

theorem lookupSymbolInObject_congr (h : AgreeOn K m m') (ho : LookupKept fuel m K obj)
    (hn : Ends m K fuel name) :
    lookupSymbolInObject fuel m' obj name = lookupSymbolInObject fuel m obj name := by
  unfold lookupSymbolInObject
  by_cases hz : obj.symtab = 0 ∨ obj.strtab = 0 ∨ obj.nchain = 0
  · rw [if_pos hz, if_pos hz]
  · rw [if_neg hz, if_neg hz]
    push Not at hz
    exact searchSymbols_congr h (ho hz.1 hz.2.1) hn fun i hi => (mem_indices.mp hi).2

theorem lookupSymbolInObject_isSome (name : CStr) (ho : LookupKept fuel m K obj) :
    (lookupSymbolInObject fuel m obj name).isSome := by
  unfold lookupSymbolInObject
  split
  · rfl
  · next hz =>
    push Not at hz
    exact searchSymbols_isSome (ho hz.1 hz.2.1) fun i hi => (mem_indices.mp hi).2

theorem lookupSymbolGlobal_cons (o : LoadedObject) (objs : List LoadedObject) :
    lookupSymbolGlobal fuel m name (o::objs) = match lookupSymbolInObject fuel m o name with
      | none => none
      | some 0 => lookupSymbolGlobal fuel m name objs
      | some addr => some addr := rfl

theorem lookupSymbolGlobal_congr (h : AgreeOn K m m') (ho : ∀ o ∈ objs, LookupKept fuel m K o)
    (hn : Ends m K fuel name) :
    lookupSymbolGlobal fuel m' name objs = lookupSymbolGlobal fuel m name objs := by
  induction objs with
  | nil => rfl
  | cons o objs ih =>
    rw [lookupSymbolGlobal_cons, lookupSymbolGlobal_cons,
      lookupSymbolInObject_congr h (ho o List.mem_cons_self) hn,
      ih fun q hq => ho q (List.mem_cons_of_mem o hq)]

theorem lookupSymbolGlobal_isSome (name : CStr) (ho : ∀ o ∈ objs, LookupKept fuel m K o) :
    (lookupSymbolGlobal fuel m name objs).isSome := by
  induction objs with
  | nil => rfl
  | cons o objs ih =>
    obtain ⟨a, ha⟩ := Option.isSome_iff_exists.mp
      (lookupSymbolInObject_isSome name (ho o List.mem_cons_self))
    rw [lookupSymbolGlobal_cons, ha]
    cases a with
    | zero => exact ih fun q hq => ho q (List.mem_cons_of_mem o hq)
    | succ a => rfl

/-! ## Relocations -/

/-- The symbol an entry names is in the table. -/
def SymbolInRange (obj : LoadedObject) (r : Rel) : Prop :=
  r.type ≠ r386Relative → obj.symtab ≠ 0 → obj.strtab ≠ 0 → r.symIdx < obj.nchain

theorem relocation_congr {r : Rel} (h : AgreeOn K m m')
    (ho : ∀ o ∈ objs, LookupKept fuel m K o) (hobj : LookupKept fuel m K obj)
    (hr : SymbolInRange obj r) :
    relocation fuel objs obj m' r = relocation fuel objs obj m r := by
  unfold relocation
  by_cases ht : r.type = r386Relative
  · rw [if_pos ht, if_pos ht]
  · rw [if_neg ht, if_neg ht]
    by_cases hz : obj.symtab = 0 ∨ obj.strtab = 0
    · simp only [if_pos hz]
    · push Not at hz
      have hi := hr ht hz.1 hz.2
      have hk := hobj hz.1 hz.2
      rw [nameOf_congr h hk hi, lookupSymbolGlobal_congr h ho (hk.names _ hi)]

theorem relocation_isSome {r : Rel} (ho : ∀ o ∈ objs, LookupKept fuel m K o) :
    (relocation fuel objs obj m r).isSome := by
  have hl := lookupSymbolGlobal_isSome (obj.nameOf m r.symIdx) ho
  unfold relocation
  split
  · rfl
  split
  · split
    · rfl
    · rw [Option.isSome_map]
      exact hl
  split
  · split
    · rfl
    · rw [Option.isSome_map]
      exact hl
  · rfl

end Vlsmc.LdSoTables
