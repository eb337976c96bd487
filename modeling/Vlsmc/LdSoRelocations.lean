import Mathlib.Data.List.Nodup
import Mathlib.Data.List.Pairwise
import Vlsmc.LdSoLoading

/-!
# The relocations of a program

Every relocation entry of every object becomes one patch to the image, and the
relative entries of `DT_REL` a second one, made when their object was loaded. The
words that `_ld_main` leaves at the targets follow.
-/

set_option autoImplicit false

namespace Vlsmc.LdSoRelocations
open Vlsmc.ByteMemory Vlsmc.Words Vlsmc.Elf Vlsmc.LdSo Vlsmc.LdSoImage Vlsmc.LdSoTables
open Vlsmc.LdSoLayout Vlsmc.LdSoLoading Vlsmc.WordPatches

variable {fuel : ℕ} {env : Env} {img : State} {o : LoadedObject} {r : Rel}

/-- The patch that an entry makes, worked out on the image. -/
def patchOf (fuel : ℕ) (img : State) (obj : LoadedObject) (r : Rel) : Patch where
  addr := obj.target r
  f := match relocation fuel img.objects obj img.mem r with
    | some (some f) => f
    | _ => id

def objectPatches (fuel : ℕ) (img : State) (obj : LoadedObject) : List Patch :=
  (relocs fuel img.mem obj).map (patchOf fuel img obj)

theorem relocation_unhandled {objs : List LoadedObject} {m : Memory} (h : Rel.handled r = false) :
    relocation fuel objs o m r = some none := by
  simp only [Rel.handled, Bool.or_eq_false_iff, beq_eq_false_iff_ne] at h
  unfold relocation
  rw [if_neg h.1.1.1, if_neg (by simp [h.1.1.2, h.1.2]), if_neg h.2]

/-- An entry acts on patched memory as its patch does. -/
theorem applyRel_eq {m : Memory} (hL : Layout fuel img) (ho : o ∈ img.objects)
    (hr : SymbolInRange o r) (hm : AgreeOn (Kept fuel img) img.mem m) :
    applyRel fuel img.objects o m r = some ((patchOf fuel img o r).apply m) := by
  have hk := fun q hq => hL.lookup_kept (o := q) hq
  unfold applyRel
  rw [relocation_congr hm hk (hk o ho) hr]
  obtain ⟨g, hg⟩ : ∃ g, relocation fuel img.objects o img.mem r = some g :=
    Option.isSome_iff_exists.mp (relocation_isSome hk)
  rw [hg]
  cases g with
  | none =>
    have hid : (patchOf fuel img o r).f = id := by
      unfold patchOf
      rw [hg]
    rw [apply_id (congrFun hid _)]
  | some g =>
    have hf : (patchOf fuel img o r).f = g := by
      unfold patchOf
      rw [hg]
    unfold Patch.apply
    rw [hf]
    rfl

/-- One relocation table. -/
theorem doRels_eq {m : Memory} {rel sz : ℕ} (hL : Layout fuel img) (ho : o ∈ img.objects)
    (hk : rel ≠ 0 → Within (Kept fuel img) rel sz)
    (hin : ∀ r ∈ relsAt img.mem rel sz, Rel.handled r = true → r ∈ relocs fuel img.mem o)
    (hm : AgreeOn (Kept fuel img) img.mem m) :
    doRels fuel img.objects o m rel sz = some (applyAll m
      (((relsAt img.mem rel sz).filter Rel.handled).map (patchOf fuel img o))) := by
  unfold doRels
  unfold relsAt at hin ⊢
  by_cases hz : rel = 0 ∨ sz = 0
  · rw [if_pos hz, if_pos hz]
    rfl
  rw [if_neg hz] at hin ⊢
  rw [if_neg hz]
  push Not at hz
  have hbound : ∀ i ∈ List.range (sz/8), i < sz/8 := fun i hi => List.mem_range.mp hi
  -- Every entry read on the way is the one of the image.
  generalize List.range (sz/8) = is at hin hbound ⊢
  induction is generalizing m with
  | nil => rfl
  | cons i is ih =>
    have hi := hbound i List.mem_cons_self
    have hin' := fun r hr => hin r (List.mem_cons_of_mem _ hr)
    have hbound' := fun j hj => hbound j (List.mem_cons_of_mem i hj)
    rw [List.foldlM_cons, relAt_kept hm (hk hz.1) hi, List.map_cons]
    by_cases hh : Rel.handled (relAt img.mem (rel+8*i)) = true
    · have hrel := hin _ List.mem_cons_self hh
      have htgt := mem_targets ho hrel
      rw [applyRel_eq hL ho (hL.symbols o ho _ hrel) hm, List.filter_cons_of_pos hh, List.map_cons,
        applyAll_cons]
      exact ih (agreeOn_apply (fun _ h => h) hm htgt) hin' hbound'
    · have hskip : applyRel fuel img.objects o m (relAt img.mem (rel+8*i)) = some m := by
        unfold applyRel
        rw [relocation_unhandled (by simpa using hh)]
      rw [hskip, List.filter_cons_of_neg hh]
      exact ih hm hin' hbound'

/-- Both tables of an object. -/
theorem processRelocations_eq {m : Memory} (hL : Layout fuel img) (ho : o ∈ img.objects)
    (hm : AgreeOn (Kept fuel img) img.mem m) :
    processRelocations fuel img.objects m o = some (applyAll m (objectPatches fuel img o)) := by
  have htab := hL.tables_kept ho
  unfold processRelocations
  by_cases hz : o.dynamic = 0
  · have hnil : objectPatches fuel img o = [] := by
      simp [objectPatches, relocs, rels, jmprels, dynamicOf, hz, pointerOf, lastOf, relsAt]
    rw [if_pos hz, hnil, applyAll_nil]
  rw [if_neg hz, entries_kept hm htab hz (hL.dynamic o ho hz), Option.bind_some]
  have hrels : ∀ r ∈ rels fuel img.mem o, Rel.handled r = true → r ∈ relocs fuel img.mem o :=
    fun r hr hh => List.mem_filter.mpr ⟨List.mem_append_left _ hr, hh⟩
  have hjmp : ∀ r ∈ jmprels fuel img.mem o, Rel.handled r = true → r ∈ relocs fuel img.mem o :=
    fun r hr hh => List.mem_filter.mpr ⟨List.mem_append_right _ hr, hh⟩
  have hfirst : AgreeOn (Kept fuel img) img.mem (applyAll m
      (((rels fuel img.mem o).filter Rel.handled).map (patchOf fuel img o))) := by
    intro k hk
    rw [agreeOn_applyAll m ?_ k hk, hm k hk]
    intro p hp
    obtain ⟨r, hr, rfl⟩ := List.mem_map.mp hp
    obtain ⟨hr, hh⟩ := List.mem_filter.mp hr
    exact mem_targets ho (hrels r hr hh)
  have hrel : doRels fuel img.objects o m (pointerOf dtRel o.loadBias (dynamicOf fuel img.mem o))
      (valueOf dtRelsz (dynamicOf fuel img.mem o)) = some (applyAll m
        (((rels fuel img.mem o).filter Rel.handled).map (patchOf fuel img o))) :=
    doRels_eq hL ho (fun h => htab _ (rel_mem_tables img.mem h)) hrels hm
  have hjmprel := doRels_eq hL ho (fun h => htab _ (jmprel_mem_tables img.mem h)) hjmp hfirst
  dsimp only at hjmprel
  rw [hrel, Option.bind_some, hjmprel]
  unfold objectPatches relocs
  rw [List.filter_append, List.map_append, applyAll_append]
  rfl

/-- The patches of all objects, in the order they are made. -/
def processPatches (fuel : ℕ) (img : State) (objs : List LoadedObject) : List Patch :=
  objs.flatMap (objectPatches fuel img)

theorem processAll_eq {m : Memory} {objs : List LoadedObject} (hL : Layout fuel img)
    (ho : ∀ o ∈ objs, o ∈ img.objects) (hm : AgreeOn (Kept fuel img) img.mem m) :
    objs.foldlM (processRelocations fuel img.objects) m =
      some (applyAll m (processPatches fuel img objs)) := by
  induction objs generalizing m with
  | nil => rfl
  | cons o objs ih =>
    have ho0 := ho o List.mem_cons_self
    have hnext : AgreeOn (Kept fuel img) img.mem (applyAll m (objectPatches fuel img o)) := by
      intro k hk
      rw [agreeOn_applyAll m ?_ k hk, hm k hk]
      intro p hp
      obtain ⟨r, hr, rfl⟩ := List.mem_map.mp hp
      exact mem_targets ho0 hr
    rw [List.foldlM_cons, processRelocations_eq hL ho0 hm]
    show objs.foldlM (processRelocations fuel img.objects) (applyAll m (objectPatches fuel img o)) = _
    rw [ih (fun q hq => ho q (List.mem_cons_of_mem o hq)) hnext]
    unfold processPatches
    rw [List.flatMap_cons, applyAll_append]

/-- The memory that `_ld_main` hands over. -/
def finalMem (fuel : ℕ) (img : State) : Memory :=
  applyAll (applyAll img.mem (loadPatches fuel img img.objects))
    (processPatches fuel img img.objects)

/-- `_ld_main` returns the entry point and the image with every patch made. -/
theorem ldMain_eq {m : Memory} {stackPtr : ℕ} {aux : List (ℕ × ℕ)}
    (haux : auxv fuel m stackPtr = some aux) (hphdr : atPhdr aux ≠ 0) (hentry : atEntry aux ≠ 0)
    (himg : imageOf fuel env m aux = some img) (hL : Layout fuel img) :
    ldMain fuel env m stackPtr = some (atEntry aux, { img with mem := finalMem fuel img }) := by
  have hps : ∀ p ∈ loadPatches fuel img img.objects, p.addr ∈ targets fuel img :=
    fun p hp => loadPatches_targets (fun _ h => h) hp
  unfold ldMain
  rw [haux, Option.bind_some, if_neg (by simp [hphdr, hentry]), (loadObjects_patched hL himg).1,
    Option.bind_some]
  unfold patched
  dsimp only
  rw [processAll_eq hL (fun _ h => h) (agreeOn_applyAll img.mem hps)]
  rfl

/-! ## The words at the targets -/

/-- Every entry with its object. -/
def entries (fuel : ℕ) (img : State) : List (LoadedObject × Rel) :=
  img.objects.flatMap fun o => (relocs fuel img.mem o).map fun r => (o, r)

theorem mem_entries : (o, r) ∈ entries fuel img ↔ o ∈ img.objects ∧ r ∈ relocs fuel img.mem o := by
  simp [entries]

theorem targets_eq (fuel : ℕ) (img : State) :
    targets fuel img = (entries fuel img).map fun e => e.1.target e.2 := by
  unfold targets entries
  rw [List.map_flatMap]
  simp only [List.map_map]
  rfl

theorem nodup_of_apart {l : List ℕ} (h : l.Pairwise WordsApart) : l.Nodup :=
  h.imp fun {a b} hab he => by
    unfold WordsApart at hab
    omega

/-- Entries with one target are one entry. -/
theorem entry_of_target (hL : Layout fuel img) {o' : LoadedObject} {r' : Rel}
    (h : (o, r) ∈ entries fuel img) (h' : (o', r') ∈ entries fuel img)
    (he : o.target r = o'.target r') : o = o' ∧ r = r' := by
  have hn := nodup_of_apart hL.apart
  rw [targets_eq] at hn
  exact Prod.mk.inj (List.inj_on_of_nodup_map hn h h' he)

instance : Std.Symm WordsApart := ⟨fun _ _ h => wordsApart_symm h⟩

theorem targets_apart (hL : Layout fuel img) {a b : ℕ} (ha : a ∈ targets fuel img)
    (hb : b ∈ targets fuel img) (hne : a ≠ b) : WordsApart a b := hL.apart.forall ha hb hne

theorem processPatches_addr (fuel : ℕ) (img : State) :
    (processPatches fuel img img.objects).map Patch.addr = targets fuel img := by
  unfold processPatches objectPatches targets
  rw [List.map_flatMap]
  simp only [List.map_map]
  rfl

theorem relativePatches_addr (fuel : ℕ) (m : Memory) (o : LoadedObject) :
    ((relativePatches fuel m o).map Patch.addr).Sublist ((relocs fuel m o).map o.target) := by
  unfold relativePatches relocs
  rw [List.map_map, List.filter_append, List.map_append]
  refine List.Sublist.trans ?_ (List.sublist_append_left _ _)
  have hsub : ((rels fuel m o).filter fun r => r.type == r386Relative).Sublist
      ((rels fuel m o).filter Rel.handled) := by
    apply List.monotone_filter_right
    intro r hr
    simp [Rel.handled, show r.type = r386Relative by simpa using hr]
  exact hsub.map o.target

theorem loadPatches_addr (fuel : ℕ) (img : State) (objs : List LoadedObject) :
    ((loadPatches fuel img objs).map Patch.addr).Sublist
      (objs.flatMap fun o => (relocs fuel img.mem o).map o.target) := by
  induction objs with
  | nil => exact List.Sublist.refl _
  | cons o objs ih =>
    unfold loadPatches at ih ⊢
    rw [List.flatMap_cons, List.flatMap_cons, List.map_append]
    exact (relativePatches_addr fuel img.mem o).append ih

theorem lookupSymbolInObject_lt {m : Memory} {name : CStr} {addr : ℕ}
    (h : lookupSymbolInObject fuel m o name = some addr) : addr < 4294967296 := by
  unfold lookupSymbolInObject at h
  split at h
  · cases h
    decide
  generalize List.range' 1 (o.nchain-1) = is at h
  induction is with
  | nil =>
    cases h
    decide
  | cons i is ih =>
    rw [searchSymbols_cons] at h
    split at h
    · split at h
      · cases h
      · cases h
        exact Nat.mod_lt _ (by decide)
      · exact ih h
    · exact ih h

theorem lookupSymbolGlobal_lt {m : Memory} {name : CStr} {objs : List LoadedObject} {addr : ℕ}
    (h : lookupSymbolGlobal fuel m name objs = some addr) : addr < 4294967296 := by
  induction objs with
  | nil =>
    cases h
    decide
  | cons o objs ih =>
    rw [lookupSymbolGlobal_cons] at h
    split at h
    · cases h
    · exact ih h
    · next hl =>
      cases h
      exact lookupSymbolInObject_lt hl

/-- An entry writes a word. -/
theorem patchOf_lt (fuel : ℕ) (img : State) (o : LoadedObject) (r : Rel) {w : ℕ}
    (hw : w < 4294967296) : (patchOf fuel img o r).f w < 4294967296 := by
  have hadd : ∀ b, addBias b w < 4294967296 := fun b => Nat.mod_lt _ (by decide)
  unfold patchOf
  dsimp only
  rcases hf : relocation fuel img.objects o img.mem r with _ | _ | f
  · exact hw
  · exact hw
  · dsimp only
    unfold relocation at hf
    split at hf
    · cases hf
      exact hadd _
    split at hf
    · split at hf
      · cases hf
      · obtain ⟨addr, ha, he⟩ := Option.map_eq_some_iff.mp hf
        cases he
        exact lookupSymbolGlobal_lt ha
    split at hf
    · split at hf
      · cases hf
      · obtain ⟨addr, ha, he⟩ := Option.map_eq_some_iff.mp hf
        split at he
        · cases he
        · cases he
          exact hadd _
    · cases hf

/-- What an entry finds is what the load phase left. -/
theorem final_word (hL : Layout fuel img) (ho : o ∈ img.objects)
    (hr : r ∈ relocs fuel img.mem o) : read32 (finalMem fuel img) (o.target r) =
      (patchOf fuel img o r).f
        (read32 (applyAll img.mem (loadPatches fuel img img.objects)) (o.target r)) := by
  have hmem : patchOf fuel img o r ∈ processPatches fuel img img.objects :=
    List.mem_flatMap.mpr ⟨o, ho, List.mem_map_of_mem hr⟩
  have hap : ((processPatches fuel img img.objects).map Patch.addr).Pairwise WordsApart := by
    rw [processPatches_addr]
    exact hL.apart
  exact applyAll_word hmem (patchOf_lt fuel img o r (read32_lt _ _)) hap

/-- A relative entry of `DT_REL` was made once when its object was loaded. -/
theorem loaded_relative (hL : Layout fuel img) (ho : o ∈ img.objects)
    (hr : r ∈ rels fuel img.mem o) (ht : r.type = r386Relative) :
    read32 (applyAll img.mem (loadPatches fuel img img.objects)) (o.target r) =
      addBias o.loadBias (read32 img.mem (o.target r)) := by
  have hmem : ⟨o.target r, addBias o.loadBias⟩ ∈ loadPatches fuel img img.objects :=
    List.mem_flatMap.mpr ⟨o, ho, List.mem_map.mpr
      ⟨r, List.mem_filter.mpr ⟨hr, by simpa using ht⟩, rfl⟩⟩
  have hap := hL.apart.sublist (loadPatches_addr fuel img img.objects)
  exact applyAll_word hmem (Nat.mod_lt _ (by decide)) hap

/-- The word of any other entry is still the image's. -/
theorem loaded_other (hL : Layout fuel img) (ho : o ∈ img.objects)
    (hr : r ∈ relocs fuel img.mem o)
    (hne : r.type = r386Relative → r ∉ rels fuel img.mem o) :
    read32 (applyAll img.mem (loadPatches fuel img img.objects)) (o.target r) =
      read32 img.mem (o.target r) := by
  apply applyAll_word_ne
  intro p hp
  obtain ⟨o', ho', hp⟩ := List.mem_flatMap.mp hp
  obtain ⟨r', hr', rfl⟩ := List.mem_map.mp hp
  obtain ⟨hr', ht'⟩ := List.mem_filter.mp hr'
  have ht' : r'.type = r386Relative := by simpa using ht'
  have hrel' := mem_relocs_of_relative hr' ht'
  refine targets_apart hL (mem_targets ho' hrel') (mem_targets ho hr) fun he => ?_
  obtain ⟨rfl, rfl⟩ := entry_of_target hL (mem_entries.mpr ⟨ho', hrel'⟩)
    (mem_entries.mpr ⟨ho, hr⟩) he
  exact hne ht' hr'

/-- An entry of `DT_JMPREL` is not one of `DT_REL` too. -/
theorem jmprel_not_rel (hL : Layout fuel img) (ho : o ∈ img.objects)
    (hr : r ∈ jmprels fuel img.mem o) (hh : Rel.handled r = true) : r ∉ rels fuel img.mem o := by
  intro hrel
  have hn := nodup_of_apart hL.apart
  have hobj : ((relocs fuel img.mem o).map o.target).Nodup := by
    unfold targets at hn
    exact (List.nodup_flatMap.mp hn).1 o ho
  have hn := List.Nodup.of_map _ hobj
  unfold relocs at hn
  rw [List.filter_append] at hn
  exact List.disjoint_of_nodup_append hn (List.mem_filter.mpr ⟨hrel, hh⟩)
    (List.mem_filter.mpr ⟨hr, hh⟩)

/-! ## Relative relocations -/

/-- Every relative entry of every object has been applied once. -/
def RelativeApplied (fuel : ℕ) (img st : State) : Prop :=
  ∀ o ∈ img.objects, ∀ r ∈ rels fuel img.mem o++jmprels fuel img.mem o, r.type = r386Relative →
    read32 st.mem (o.target r) = addBias o.loadBias (read32 img.mem (o.target r))

theorem relocation_relative {objs : List LoadedObject} {m : Memory} (h : r.type = r386Relative) :
    relocation fuel objs o m r = some (some (addBias o.loadBias)) := if_pos h

theorem patchOf_relative (fuel : ℕ) (img : State) (o : LoadedObject) (h : r.type = r386Relative) :
    (patchOf fuel img o r).f = addBias o.loadBias := by
  unfold patchOf
  rw [relocation_relative h]

/-- A relative entry of `DT_REL` ends up applied twice. -/
theorem final_rel (hL : Layout fuel img) (ho : o ∈ img.objects) (hr : r ∈ rels fuel img.mem o)
    (ht : r.type = r386Relative) : read32 (finalMem fuel img) (o.target r) =
      addBias o.loadBias (addBias o.loadBias (read32 img.mem (o.target r))) := by
  rw [final_word hL ho (mem_relocs_of_relative hr ht), patchOf_relative fuel img o ht,
    loaded_relative hL ho hr ht]

/-- A relative entry of `DT_JMPREL` is applied once. -/
theorem final_jmprel (hL : Layout fuel img) (ho : o ∈ img.objects)
    (hr : r ∈ jmprels fuel img.mem o) (ht : r.type = r386Relative) :
    read32 (finalMem fuel img) (o.target r) =
      addBias o.loadBias (read32 img.mem (o.target r)) := by
  have hh : Rel.handled r = true := by simp [Rel.handled, ht]
  have hrel : r ∈ relocs fuel img.mem o := List.mem_filter.mpr ⟨List.mem_append_right _ hr, hh⟩
  rw [final_word hL ho hrel, patchOf_relative fuel img o ht,
    loaded_other hL ho hrel fun _ => jmprel_not_rel hL ho hr hh]

/-- Adding a bias twice is adding it once only when it is none. -/
theorem addBias_twice {b w : ℕ} (hb : b < 4294967296) :
    addBias b (addBias b w) = addBias b w ↔ b = 0 := by
  unfold addBias u32
  omega

/-- `_ld_main` applies every relative relocation exactly once just when no library
has one in its `DT_REL`: those are applied when the library is loaded and again
with all others. -/
theorem relative_once {m : Memory} {stackPtr : ℕ} {aux : List (ℕ × ℕ)}
    (haux : auxv fuel m stackPtr = some aux) (hphdr : atPhdr aux ≠ 0) (hentry : atEntry aux ≠ 0)
    (himg : imageOf fuel env m aux = some img) (hL : Layout fuel img) :
    ∃ st, ldMain fuel env m stackPtr = some (atEntry aux, st) ∧
      (RelativeApplied fuel img st ↔
        ∀ o ∈ img.objects.tail, ∀ r ∈ rels fuel img.mem o, r.type ≠ r386Relative) := by
  refine ⟨_, ldMain_eq haux hphdr hentry himg hL, ?_⟩
  obtain ⟨-, app, hhead, hbias, hready⟩ := loadObjects_patched hL himg
  obtain ⟨libs, hobjs⟩ : ∃ libs, img.objects = app::libs := by
    cases h : img.objects with
    | nil =>
      rw [h] at hhead
      cases hhead
    | cons a libs =>
      rw [h] at hhead
      cases hhead
      exact ⟨libs, rfl⟩
  constructor
  · intro h o ho r hr ht
    have hb := hready.biases o ho
    have hmem : o ∈ img.objects := List.mem_of_mem_tail ho
    have h1 := h o hmem r (List.mem_append_left _ hr) ht
    rw [final_rel hL hmem hr ht, addBias_twice (by have := hready.high; omega)] at h1
    omega
  · intro h o ho r hr ht
    dsimp only
    rcases List.mem_append.mp hr with hr | hr
    · rw [hobjs] at ho
      rcases List.mem_cons.mp ho with rfl | hlib
      · have ho : o ∈ img.objects := head_mem hhead
        rw [final_rel hL ho hr ht, addBias_twice (by omega)]
        exact hbias
      · exact absurd ht (h o (by rw [hobjs]; exact hlib) r hr)
    · exact final_jmprel hL ho hr ht

/-! ## Symbols -/

/-- The object defines a global or weak symbol of that name at an address; the
symbol of index 0 is reserved. -/
def Exports (m : Memory) (obj : LoadedObject) (s : List UInt8) (addr : ℕ) : Prop :=
  ∃ i, 1 ≤ i ∧ i < obj.nchain ∧ (obj.sym m i).exported = true ∧ Spells m (obj.nameOf m i) s ∧
    addr = u32 ((obj.sym m i).stValue+obj.loadBias)

/-- A name resolves to the first object that exports it at an address other than
0, and to 0 when there is none. -/
inductive Resolves (m : Memory) (s : List UInt8) : List LoadedObject → ℕ → Prop
  | nowhere : Resolves m s [] 0
  | here {o : LoadedObject} {os : List LoadedObject} {addr : ℕ} (h : Exports m o s addr)
      (h0 : addr ≠ 0) : Resolves m s (o::os) addr
  | later {o : LoadedObject} {os : List LoadedObject} {addr : ℕ}
      (h : ∀ a, Exports m o s a → a = 0) (hos : Resolves m s os addr) : Resolves m s (o::os) addr

/-- At most one exported symbol of each name. -/
def UniqueNames (m : Memory) (obj : LoadedObject) : Prop :=
  ∀ i j, 1 ≤ i → 1 ≤ j → i < obj.nchain → j < obj.nchain → (obj.sym m i).exported = true →
    (obj.sym m j).exported = true → ∀ s, Spells m (obj.nameOf m i) s →
    Spells m (obj.nameOf m j) s → i = j

theorem searchSymbols_some {m : Memory} {name : CStr} {s : List UInt8} {is : List ℕ} {addr : ℕ}
    (hs : Spells m name s) (hi : ∀ i ∈ is, ∃ t, Spells m (o.nameOf m i) t)
    (h : searchSymbols fuel m o name is = some addr) :
    (∃ i ∈ is, (o.sym m i).exported = true ∧ Spells m (o.nameOf m i) s ∧
      addr = u32 ((o.sym m i).stValue+o.loadBias)) ∨
    (addr = 0 ∧ ∀ i ∈ is, (o.sym m i).exported = true → ¬Spells m (o.nameOf m i) s) := by
  induction is with
  | nil =>
    cases h
    exact .inr ⟨rfl, fun _ h => by cases h⟩
  | cons i is ih =>
    have ih' := ih fun j hj => hi j (List.mem_cons_of_mem i hj)
    rw [searchSymbols_cons] at h
    split at h
    · next hexp =>
      obtain ⟨t, ht⟩ := hi i List.mem_cons_self
      split at h
      · cases h
      · next heq =>
        cases h
        have hts := (strEq_spells ht hs heq).mp rfl
        exact .inl ⟨i, List.mem_cons_self, hexp, hts ▸ ht, rfl⟩
      · next hneq =>
        have hts : ¬t = s := fun hts => Bool.false_ne_true ((strEq_spells ht hs hneq).mpr hts)
        rcases ih' h with ⟨j, hj, hrest⟩ | ⟨h0, hnone⟩
        · exact .inl ⟨j, List.mem_cons_of_mem i hj, hrest⟩
        · refine .inr ⟨h0, fun j hj hjexp hjs => ?_⟩
          rcases List.mem_cons.mp hj with rfl | hj
          · exact hts (spells_unique ht hjs)
          · exact hnone j hj hjexp hjs
    · next hexp =>
      rcases ih' h with ⟨j, hj, hrest⟩ | ⟨h0, hnone⟩
      · exact .inl ⟨j, List.mem_cons_of_mem i hj, hrest⟩
      · refine .inr ⟨h0, fun j hj hjexp hjs => ?_⟩
        rcases List.mem_cons.mp hj with rfl | hj
        · exact hexp hjexp
        · exact hnone j hj hjexp hjs

/-- With one symbol of a name, the lookup in an object finds what it exports. -/
theorem lookupSymbolInObject_exports {K : ℕ → Prop} {m : Memory} {name : CStr} {s : List UInt8}
    {addr : ℕ} (hk : SymbolsKept fuel m K o) (hu : UniqueNames m o) (hst : o.symtab ≠ 0)
    (hstr : o.strtab ≠ 0) (hs : Spells m name s)
    (h : lookupSymbolInObject fuel m o name = some addr) :
    (addr ≠ 0 → Exports m o s addr) ∧ ∀ a, Exports m o s a → a = addr := by
  unfold lookupSymbolInObject at h
  by_cases hn : o.nchain = 0
  · rw [if_pos (by simp [hn])] at h
    cases h
    refine ⟨fun h => absurd rfl h, ?_⟩
    rintro a ⟨i, -, hi, -⟩
    omega
  rw [if_neg (by simp [hst, hstr, hn])] at h
  have hends : ∀ i ∈ List.range' 1 (o.nchain-1), ∃ t, Spells m (o.nameOf m i) t :=
    fun i hi => (hk.names i (mem_indices.mp hi).2).spells
  rcases searchSymbols_some hs hends h with ⟨i, hi, hexp, hspell, ha⟩ | ⟨h0, hnone⟩
  · obtain ⟨hi1, hin⟩ := mem_indices.mp hi
    refine ⟨fun _ => ⟨i, hi1, hin, hexp, hspell, ha⟩, ?_⟩
    rintro a ⟨j, hj1, hjn, hjexp, hjs, rfl⟩
    have hij := hu i j hi1 hj1 hin hjn hexp hjexp s hspell hjs
    rw [ha, hij]
  · refine ⟨fun h => absurd h0 h, ?_⟩
    rintro a ⟨j, hj1, hjn, hjexp, hjs, rfl⟩
    exact absurd hjs (hnone j (mem_indices.mpr ⟨hj1, hjn⟩) hjexp)

theorem lookupSymbolGlobal_resolves {K : ℕ → Prop} {m : Memory} {name : CStr} {s : List UInt8}
    {addr : ℕ} {objs : List LoadedObject}
    (hk : ∀ o ∈ objs, SymbolsKept fuel m K o ∧ UniqueNames m o ∧ o.symtab ≠ 0 ∧ o.strtab ≠ 0)
    (hs : Spells m name s) (h : lookupSymbolGlobal fuel m name objs = some addr) :
    Resolves m s objs addr := by
  induction objs with
  | nil =>
    cases h
    exact .nowhere
  | cons o objs ih =>
    obtain ⟨hsym, hu, hst, hstr⟩ := hk o List.mem_cons_self
    rw [lookupSymbolGlobal_cons] at h
    split at h
    · cases h
    · next h0 =>
      exact .later (lookupSymbolInObject_exports hsym hu hst hstr hs h0).2
        (ih (fun q hq => hk q (List.mem_cons_of_mem o hq)) h)
    · next a hne hl =>
      cases h
      exact .here ((lookupSymbolInObject_exports hsym hu hst hstr hs hl).1 hne) hne

/-- Every symbol relocation of every object leaves the address its name resolves to
in registration order, `R_386_32` added to the word of the image. -/
theorem symbols_resolved {m : Memory} {stackPtr : ℕ} {aux : List (ℕ × ℕ)}
    (haux : auxv fuel m stackPtr = some aux) (hphdr : atPhdr aux ≠ 0) (hentry : atEntry aux ≠ 0)
    (himg : imageOf fuel env m aux = some img) (hL : Layout fuel img)
    (hsym : ∀ o ∈ img.objects, o.symtab ≠ 0 ∧ o.strtab ≠ 0)
    (hu : ∀ o ∈ img.objects, UniqueNames img.mem o) :
    ∃ st, ldMain fuel env m stackPtr = some (atEntry aux, st) ∧
      ∀ o ∈ img.objects, ∀ r ∈ rels fuel img.mem o++jmprels fuel img.mem o,
        (r.type = r386GlobDat ∨ r.type = r386JmpSlot → ∃ s addr,
          Spells img.mem (o.nameOf img.mem r.symIdx) s ∧
          Resolves img.mem s img.objects addr ∧ read32 st.mem (o.target r) = addr) ∧
        (r.type = r38632 → ∃ s addr, Spells img.mem (o.nameOf img.mem r.symIdx) s ∧
          Resolves img.mem s img.objects addr ∧
          read32 st.mem (o.target r) = u32 (read32 img.mem (o.target r)+addr)) := by
  refine ⟨_, ldMain_eq haux hphdr hentry himg hL, ?_⟩
  intro o ho r hr
  have hkept : ∀ q ∈ img.objects, SymbolsKept fuel img.mem (Kept fuel img) q := fun q hq =>
    hL.lookup_kept hq (hsym q hq).1 (hsym q hq).2
  -- The name of the entry, and what the lookup finds for it.
  have hname : r.type ≠ r386Relative → Rel.handled r = true → ∃ s addr,
      Spells img.mem (o.nameOf img.mem r.symIdx) s ∧ Resolves img.mem s img.objects addr ∧
      lookupSymbolGlobal fuel img.mem (o.nameOf img.mem r.symIdx) img.objects = some addr := by
    intro hne hh
    have hin := hL.symbols o ho r (List.mem_filter.mpr ⟨hr, hh⟩) hne (hsym o ho).1 (hsym o ho).2
    obtain ⟨s, hs⟩ := ((hkept o ho).names _ hin).spells
    obtain ⟨addr, ha⟩ := Option.isSome_iff_exists.mp (lookupSymbolGlobal_isSome
      (o.nameOf img.mem r.symIdx) fun q hq => hL.lookup_kept (o := q) hq)
    refine ⟨s, addr, hs, lookupSymbolGlobal_resolves
      (K := Kept fuel img) ?_ hs ha, ha⟩
    exact fun q hq => ⟨hkept q hq, hu q hq, hsym q hq⟩
  have hword : r.type ≠ r386Relative → Rel.handled r = true →
      read32 (finalMem fuel img) (o.target r) =
        (patchOf fuel img o r).f (read32 img.mem (o.target r)) := by
    intro hne hh
    have hrel : r ∈ relocs fuel img.mem o := List.mem_filter.mpr ⟨hr, hh⟩
    rw [final_word hL ho hrel, loaded_other hL ho hrel fun h => absurd h hne]
  have hnull : ¬(o.symtab = 0 ∨ o.strtab = 0) := by
    have := hsym o ho
    tauto
  constructor
  · intro ht
    have hne : r.type ≠ r386Relative := by
      rcases ht with ht | ht <;> rw [ht] <;> decide
    have hh : Rel.handled r = true := by
      rcases ht with ht | ht <;> simp [Rel.handled, ht]
    obtain ⟨s, addr, hs, hres, ha⟩ := hname hne hh
    refine ⟨s, addr, hs, hres, ?_⟩
    have hrel : relocation fuel img.objects o img.mem r = some (some fun _ => addr) := by
      unfold relocation
      rw [if_neg hne, if_pos ht, if_neg hnull, ha]
      rfl
    dsimp only
    rw [hword hne hh]
    unfold patchOf
    rw [hrel]
  · intro ht
    have hne : r.type ≠ r386Relative := by
      rw [ht]
      decide
    have hh : Rel.handled r = true := by simp [Rel.handled, ht]
    have hother : ¬(r.type = r386GlobDat ∨ r.type = r386JmpSlot) := by
      rw [ht]
      decide
    obtain ⟨s, addr, hs, hres, ha⟩ := hname hne hh
    refine ⟨s, addr, hs, hres, ?_⟩
    have hrel : relocation fuel img.objects o img.mem r =
        some (if addr = 0 then none else some (addBias addr)) := by
      unfold relocation
      rw [if_neg hne, if_neg hother, if_pos ht, if_neg hnull, ha]
      rfl
    dsimp only
    rw [hword hne hh]
    unfold patchOf
    rw [hrel]
    by_cases h0 : addr = 0
    · rw [if_pos h0, h0]
      exact (u32_of_lt (read32_lt _ _)).symm
    · rw [if_neg h0]
      rfl

/-! ## One application and one library -/

/-- The byte at `k` of a sequence of words. -/
def wordByte (ws : List ℕ) (k : ℕ) : UInt8 := UInt8.ofNat (ws.getD (k/4) 0/256^(k%4))

/-- An application at `0x08048000`: program headers, a dynamic table that needs the
library `l` and has one `R_386_GLOB_DAT` entry for the symbol `f`, and the stack. -/
def sampleMem : Memory := fun k => if k < 0x08048000 then 0 else wordByte [
    2, 0, 134512672, 0, 0, 0, 0, 0, 1, 3, 5, 134512768, 6, 134512776, 10, 5, 4, 134512808, 17,
    134512816, 18, 8, 0, 0, 0, 0, 0, 0, 0, 0, 0, 0, 1811965440, 0, 0, 0, 0, 0, 1, 0, 0, 18, 1, 2,
    134512736, 262, 0, 0, 0, 0, 0, 3, 134512640, 4, 32, 5, 1, 9, 134512704, 0, 0] (k-0x08048000)

/-- The library: it defines `f`, and has an `R_386_RELATIVE` and an `R_386_32` entry. -/
def sampleLibrary : File where
  size := 272
  byte := wordByte [
    1179403647, 0, 0, 0, 0, 0, 0, 52, 0, 0, 2097204, 2, 0, 1, 0, 0, 0, 272, 272, 7, 4096, 2, 116,
    116, 0, 56, 56, 6, 4, 5, 172, 6, 176, 10, 3, 4, 208, 17, 216, 18, 16, 0, 0, 26112, 0, 0, 0,
    0, 1, 256, 0, 65554, 1, 2, 240, 8, 244, 257, 0, 0, 32, 4, 0, 0, 0, 0, 0, 0]
  size_lt := by decide

def sampleEnv : Env where
  fopen := fun path => if path = [0x2f, 0x6c, 0x69, 0x62, 0x2f, 0x6c] then some sampleLibrary
    else none
  stack := fun _ => 0
  findFreeVaddr := fun _ _ => 0x40000000
  framesFor := fun _ _ => true

def sampleStack : ℕ := 0x080480c0

def sampleAux : List (ℕ × ℕ) := [(3, 0x08048000), (4, 32), (5, 1), (9, 0x08048040)]

def sampleImage : State := (imageOf 10 sampleEnv sampleMem sampleAux).getD (start sampleMem)

theorem sample_aux : auxv 10 sampleMem sampleStack = some sampleAux := by decide +kernel

theorem sample_image : imageOf 10 sampleEnv sampleMem sampleAux = some sampleImage := by
  have h : (imageOf 10 sampleEnv sampleMem sampleAux).isSome := by decide +kernel
  obtain ⟨img, himg⟩ := Option.isSome_iff_exists.mp h
  unfold sampleImage
  rw [himg]
  rfl

instance (obj : LoadedObject) (r : Rel) : Decidable (SymbolInRange obj r) :=
  inferInstanceAs (Decidable (_ → _ → _ → _))

theorem sample_layout : Layout 10 sampleImage where
  dynamic := by decide +kernel
  apart := by decide +kernel
  outside := by decide +kernel
  symbols := by decide +kernel
  strings := by decide +kernel
  ended := by decide +kernel
  bounded := by decide +kernel
  ranges := by decide +kernel
  libraries := by decide +kernel
  application := by decide +kernel
  needed := by decide +kernel

theorem relative_once_sample :
    ∃ st, ldMain 10 sampleEnv sampleMem sampleStack = some (atEntry sampleAux, st) ∧
      (RelativeApplied 10 sampleImage st ↔
        ∀ o ∈ sampleImage.objects.tail, ∀ r ∈ rels 10 sampleImage.mem o,
          r.type ≠ r386Relative) :=
  relative_once sample_aux (by decide) (by decide) sample_image sample_layout

instance (fuel : ℕ) (img st : State) : Decidable (RelativeApplied fuel img st) :=
  inferInstanceAs (Decidable (∀ o ∈ img.objects, ∀ r ∈ rels fuel img.mem o++jmprels fuel img.mem o,
    _ → _))

/-- The library's relative entry is applied twice: the word 32 of the file becomes
32 and twice the load bias. -/
theorem library_relocated_twice :
    ∃ st, ldMain 10 sampleEnv sampleMem sampleStack = some (atEntry sampleAux, st) ∧
      read32 sampleImage.mem 0x600000f0 = 0x20 ∧ read32 st.mem 0x600000f0 = 0xc0000020 ∧
      ¬RelativeApplied 10 sampleImage st :=
  ⟨_, ldMain_eq sample_aux (by decide) (by decide) sample_image sample_layout,
    by decide +kernel, by decide +kernel, by decide +kernel⟩

theorem symbols_resolved_sample : ∃ st s addr,
    ldMain 10 sampleEnv sampleMem sampleStack = some (atEntry sampleAux, st) ∧
    Resolves sampleImage.mem s sampleImage.objects addr ∧ read32 st.mem 0x08048060 = addr := by
  have hsmall : ∀ o ∈ sampleImage.objects, o.nchain ≤ 2 := by decide +kernel
  obtain ⟨st, hst, hall⟩ := symbols_resolved sample_aux (by decide) (by decide) sample_image
    sample_layout (by decide +kernel) (fun o ho i j _ _ _ _ _ _ _ _ _ => by
      have := hsmall o ho
      omega)
  have hentry : ∃ o ∈ sampleImage.objects, ∃ r ∈ rels 10 sampleImage.mem o,
      r.type = r386GlobDat ∧ o.target r = 0x08048060 := by
    decide +kernel
  obtain ⟨o, ho, r, hr, ht, htgt⟩ := hentry
  obtain ⟨s, addr, -, hres, hword⟩ := (hall o ho r (List.mem_append_left _ hr)).1 (.inl ht)
  exact ⟨st, s, addr, hst, hres, htgt ▸ hword⟩

end Vlsmc.LdSoRelocations
