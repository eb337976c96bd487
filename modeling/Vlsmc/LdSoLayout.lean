import Vlsmc.LdSoImage
import Vlsmc.LdSoTables

/-!
# Objects as they are loaded

The image of a program: memory with the application and its libraries mapped and
nothing relocated. `Layout` says of it what the relocation of an image relies on:
tables and targets apart from each other, and each object in its own memory.
-/

set_option autoImplicit false

namespace Vlsmc.LdSoLayout
open Vlsmc.ByteMemory Vlsmc.Words Vlsmc.Elf Vlsmc.LdSo Vlsmc.LdSoImage Vlsmc.LdSoTables
open Vlsmc.WordPatches

/-- The segments of the library, if there is one to load, fit. -/
def segmentsFit (env : Env) (st : State) (soname : ℕ) : Bool :=
  match env.fopen (libPath st.mem soname) with
  | none => true
  | some f => decide (Fits (phdrs (hdrBuf env f)))

/-- Loading a library with segments that fit, without relocation. -/
def mapOnly (fuel : ℕ) (env : Env) (st : State) (soname : ℕ) : Option State :=
  if segmentsFit env st soname then (mapSharedObject fuel env st soname).map Prod.fst else none

/-- The state with every object mapped and registered, before any relocation. -/
def imageOf (fuel : ℕ) (env : Env) (m : Memory) (aux : List (ℕ × ℕ)) : Option State :=
  loadObjects (mapOnly fuel env) fuel m aux

def dynamicOf (fuel : ℕ) (m : Memory) (obj : LoadedObject) : List (ℕ × ℕ) :=
  if obj.dynamic = 0 then [] else (entriesFrom m fuel obj.dynamic).getD []

/-- The entries of a relocation table. -/
def relsAt (m : Memory) (rel sz : ℕ) : List Rel :=
  if rel = 0 ∨ sz = 0 then [] else (List.range (sz/8)).map fun i => relAt m (rel+8*i)

/-- The entries of `DT_REL`. -/
def rels (fuel : ℕ) (m : Memory) (obj : LoadedObject) : List Rel :=
  relsAt m (pointerOf dtRel obj.loadBias (dynamicOf fuel m obj))
    (valueOf dtRelsz (dynamicOf fuel m obj))

/-- The entries of `DT_JMPREL`. -/
def jmprels (fuel : ℕ) (m : Memory) (obj : LoadedObject) : List Rel :=
  relsAt m (pointerOf dtJmprel obj.loadBias (dynamicOf fuel m obj))
    (valueOf dtPltrelsz (dynamicOf fuel m obj))

/-- The types that `process_relocations` acts on. -/
def Rel.handled (r : Rel) : Bool :=
  r.type == r386Relative || r.type == r386GlobDat || r.type == r386JmpSlot || r.type == r38632

def relocs (fuel : ℕ) (m : Memory) (obj : LoadedObject) : List Rel :=
  (rels fuel m obj++jmprels fuel m obj).filter Rel.handled

def targets (fuel : ℕ) (st : State) : List ℕ :=
  st.objects.flatMap fun obj => (relocs fuel st.mem obj).map obj.target

/-- The tables of an object that has them: address and size. -/
def tables (fuel : ℕ) (m : Memory) (obj : LoadedObject) : List (ℕ × ℕ) :=
  let es := dynamicOf fuel m obj
  [(obj.dynamic, 8*(es.length+1)), (obj.symtab, 16*obj.nchain), (obj.strtab, obj.strtabSize),
    (pointerOf dtHash obj.loadBias es, 8),
    (pointerOf dtRel obj.loadBias es, valueOf dtRelsz es),
    (pointerOf dtJmprel obj.loadBias es, valueOf dtPltrelsz es)].filter fun t => t.1 != 0

/-- The words `[a, a+n)` and `[b, b+l)` share no byte. -/
def RangesApart (a n b l : ℕ) : Prop := a+n ≤ b ∨ b+l ≤ a

instance (a n b l : ℕ) : Decidable (RangesApart a n b l) := inferInstanceAs (Decidable (_ ∨ _))

/-- What the image of well-formed files satisfies. -/
structure Layout (fuel : ℕ) (img : State) : Prop where
  dynamic : ∀ o ∈ img.objects, o.dynamic ≠ 0 → (entriesFrom img.mem fuel o.dynamic).isSome
  apart : (targets fuel img).Pairwise WordsApart
  outside : ∀ o ∈ img.objects, ∀ t ∈ tables fuel img.mem o, ∀ a ∈ targets fuel img,
    RangesApart a 4 t.1 t.2
  symbols : ∀ o ∈ img.objects, ∀ r ∈ relocs fuel img.mem o, SymbolInRange o r
  strings : ∀ o ∈ img.objects, o.symtab ≠ 0 → o.strtab ≠ 0 → ∀ i < o.nchain,
    (o.sym img.mem i).stName < o.strtabSize
  ended : ∀ o ∈ img.objects, o.strtab ≠ 0 → o.strtabSize ≠ 0 →
    img.mem (o.strtab+o.strtabSize-1) = 0
  bounded : ∀ o ∈ img.objects, o.strtabSize ≤ fuel
  ranges : ∀ v ∈ img.mapped, v.1 < v.2 ∧ v.2+8192 ≤ 4294967296
  libraries : ∀ o ∈ img.objects.tail, ∃ v ∈ img.mapped, v.1 = o.loadBias ∧
    (∀ t ∈ tables fuel img.mem o, v.1 ≤ t.1 ∧ t.1+t.2 ≤ v.2) ∧
    ∀ r ∈ relocs fuel img.mem o, v.1 ≤ o.target r ∧ o.target r+4 ≤ v.2
  application : ∀ o ∈ img.objects.head?, ∀ v ∈ img.mapped,
    (∀ t ∈ tables fuel img.mem o, RangesApart t.1 t.2 v.1 (v.2-v.1)) ∧
    ∀ r ∈ relocs fuel img.mem o, RangesApart (o.target r) 4 v.1 (v.2-v.1)
  needed : ∀ o ∈ img.objects.head?, ∀ e ∈ dynamicOf fuel img.mem o, e.1 = dtNeeded →
    appStrtab (dynamicOf fuel img.mem o) = o.strtab ∧ e.2 < o.strtabSize

/-- A byte of no relocation target. -/
def Kept (fuel : ℕ) (img : State) (k : ℕ) : Prop := ∀ a ∈ targets fuel img, k < a ∨ a+4 ≤ k

section Tables

variable {fuel : ℕ} {img : State} {o : LoadedObject} {m m' : Memory} {K : ℕ → Prop}

theorem dynamic_mem_tables (m : Memory) (h : o.dynamic ≠ 0) :
    (o.dynamic, 8*((dynamicOf fuel m o).length+1)) ∈ tables fuel m o := by
  simp [tables, h]

theorem symtab_mem_tables (m : Memory) (h : o.symtab ≠ 0) :
    (o.symtab, 16*o.nchain) ∈ tables fuel m o := by
  simp [tables, h]

theorem strtab_mem_tables (m : Memory) (h : o.strtab ≠ 0) :
    (o.strtab, o.strtabSize) ∈ tables fuel m o := by
  simp [tables, h]

theorem hash_mem_tables (m : Memory) (h : pointerOf dtHash o.loadBias (dynamicOf fuel m o) ≠ 0) :
    (pointerOf dtHash o.loadBias (dynamicOf fuel m o), 8) ∈ tables fuel m o := by
  simp [tables, h]

theorem rel_mem_tables (m : Memory) (h : pointerOf dtRel o.loadBias (dynamicOf fuel m o) ≠ 0) :
    (pointerOf dtRel o.loadBias (dynamicOf fuel m o), valueOf dtRelsz (dynamicOf fuel m o)) ∈
      tables fuel m o := by
  simp [tables, h]

theorem jmprel_mem_tables (m : Memory)
    (h : pointerOf dtJmprel o.loadBias (dynamicOf fuel m o) ≠ 0) :
    (pointerOf dtJmprel o.loadBias (dynamicOf fuel m o),
      valueOf dtPltrelsz (dynamicOf fuel m o)) ∈ tables fuel m o := by
  simp [tables, h]

/-- The tables of an object may be relied on. -/
def TablesKept (fuel : ℕ) (m : Memory) (K : ℕ → Prop) (o : LoadedObject) : Prop :=
  ∀ t ∈ tables fuel m o, Within K t.1 t.2

/-- The dynamic table of an object in memory that agrees on its tables. -/
theorem entries_kept (h : AgreeOn K m m') (ho : TablesKept fuel m K o) (hz : o.dynamic ≠ 0)
    (hd : (entriesFrom m fuel o.dynamic).isSome) :
    entriesFrom m' fuel o.dynamic = some (dynamicOf fuel m o) := by
  obtain ⟨es, hes⟩ := Option.isSome_iff_exists.mp hd
  have hdyn : dynamicOf fuel m o = es := by
    unfold dynamicOf
    rw [if_neg hz, hes]
    rfl
  have hk := ho _ (dynamic_mem_tables m hz)
  rw [hdyn] at hk ⊢
  exact entriesFrom_congr h hk hes

theorem dynamicOf_kept (h : AgreeOn K m m') (ho : TablesKept fuel m K o)
    (hd : o.dynamic ≠ 0 → (entriesFrom m fuel o.dynamic).isSome) :
    dynamicOf fuel m' o = dynamicOf fuel m o := by
  by_cases hz : o.dynamic = 0
  · unfold dynamicOf
    rw [if_pos hz, if_pos hz]
  · have he := entries_kept h ho hz (hd hz)
    conv_lhs => unfold dynamicOf
    rw [if_neg hz, he]
    rfl

theorem relAt_kept {rel sz i : ℕ} (h : AgreeOn K m m') (hk : Within K rel sz) (hi : i < sz/8) :
    relAt m' (rel+8*i) = relAt m (rel+8*i) := by
  unfold relAt
  rw [h.read32 (hk.mono (by omega) (by omega)), h.read32 (hk.mono (by omega) (by omega))]

theorem relsAt_kept {rel sz : ℕ} (h : AgreeOn K m m') (hk : rel ≠ 0 → Within K rel sz) :
    relsAt m' rel sz = relsAt m rel sz := by
  unfold relsAt
  by_cases hz : rel = 0 ∨ sz = 0
  · rw [if_pos hz, if_pos hz]
  · rw [if_neg hz, if_neg hz]
    push Not at hz
    exact List.map_congr_left fun i hi => relAt_kept h (hk hz.1) (List.mem_range.mp hi)

theorem rels_kept (h : AgreeOn K m m') (ho : TablesKept fuel m K o)
    (hd : o.dynamic ≠ 0 → (entriesFrom m fuel o.dynamic).isSome) :
    rels fuel m' o = rels fuel m o := by
  unfold rels
  rw [dynamicOf_kept h ho hd]
  exact relsAt_kept h fun hz => ho _ (rel_mem_tables m hz)

theorem mem_targets {r : Rel} (ho : o ∈ img.objects) (hr : r ∈ relocs fuel img.mem o) :
    o.target r ∈ targets fuel img :=
  List.mem_flatMap.mpr ⟨o, ho, List.mem_map_of_mem hr⟩

theorem Layout.tables_kept (h : Layout fuel img) (ho : o ∈ img.objects) :
    TablesKept fuel img.mem (Kept fuel img) o := by
  intro t ht k h0 h1 a ha
  have := h.outside o ho t ht a ha
  unfold RangesApart at this
  omega

/-- A name in an object's string table is read to its end. -/
theorem Layout.name_ends (h : Layout fuel img) (ho : o ∈ img.objects) (hz : o.strtab ≠ 0) {n : ℕ}
    (hn : n < o.strtabSize) (hk : Within K o.strtab o.strtabSize) :
    Ends img.mem K fuel (.ptr (o.strtab+n)) := by
  have hb := h.bounded o ho
  exact (ends_of_table (by omega) (by omega) (h.ended o ho hz (by omega)) hk).mono (by omega)

theorem Layout.lookup_kept (h : Layout fuel img) (ho : o ∈ img.objects) :
    LookupKept fuel img.mem (Kept fuel img) o := by
  intro hs ht
  have hk := h.tables_kept ho
  exact ⟨hk _ (symtab_mem_tables img.mem hs), fun i hi =>
    h.name_ends ho ht (h.strings o ho hs ht i hi) (hk _ (strtab_mem_tables img.mem ht))⟩

end Tables

end Vlsmc.LdSoLayout
