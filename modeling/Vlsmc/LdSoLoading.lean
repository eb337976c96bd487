import Vlsmc.LdSoLayout

/-!
# Loading the libraries

The `DT_NEEDED` loop, twice: as `_ld_main` runs it, with the relative relocations
of each library made on the spot, and without relocation. The states differ by
those patches and nothing else, since no library is mapped over what an earlier
object owns.
-/

set_option autoImplicit false

namespace Vlsmc.LdSoLoading
open Vlsmc.ByteMemory Vlsmc.Words Vlsmc.Elf Vlsmc.LdSo Vlsmc.LdSoImage Vlsmc.LdSoTables
open Vlsmc.LdSoLayout Vlsmc.WordPatches

/-! ## The image grows -/

/-- A state of the loop: the application registered, and libraries below the next
load address. -/
structure Ready (t : State) : Prop where
  aligned : 4096 ∣ t.nextLoadAddr
  low : 0x60000000 ≤ t.nextLoadAddr
  high : t.nextLoadAddr < 4294967296
  mapped : ∀ v ∈ t.mapped, v.2 ≤ t.nextLoadAddr
  registered : t.objects ≠ []
  biases : ∀ o ∈ t.objects.tail, 0x60000000 ≤ o.loadBias ∧ o.loadBias < t.nextLoadAddr

/-- A range that ends well before the address space does. -/
def InSpace (v : ℕ × ℕ) : Prop := v.1 < v.2 ∧ v.2+8192 ≤ 4294967296

/-- The library mapped and copied, not yet registered. -/
def placed (env : Env) (f : File) (t : State) : State :=
  { t with
    mem := copySegments f t.nextLoadAddr (place t.mem t.nextLoadAddr
      (totalSize (phdrs (hdrBuf env f))) fun _ => 0) (phdrs (hdrBuf env f))
    mapped := (t.nextLoadAddr, t.nextLoadAddr+totalSize (phdrs (hdrBuf env f)))::t.mapped
    nextLoadAddr := t.nextLoadAddr+totalSize (phdrs (hdrBuf env f))+4096 }

/-- A library mapped: what `mapSharedObject` does when it changes the state. -/
structure Mapped (fuel : ℕ) (env : Env) (t t1 : State) (soname : ℕ) (r : Option LoadedObject)
    (f : File) : Prop where
  opened : env.fopen (libPath t.mem soname) = some f
  loadable : File.loadable env f = true
  space : t.nextLoadAddr+totalSize (phdrs (hdrBuf env f))+8192 ≤ 4294967296
  whole : 4096 ∣ totalSize (phdrs (hdrBuf env f))
  framed : env.framesFor t.mapped (totalSize (phdrs (hdrBuf env f))) = true
  positive : totalSize (phdrs (hdrBuf env f)) ≠ 0
  register : registerObject fuel (placed env f t) (.ptr soname) t.nextLoadAddr
    (dynamicAt (phdrs (hdrBuf env f)) t.nextLoadAddr) = some (t1, r)

variable {fuel : ℕ} {env : Env} {t t1 img : State} {soname : ℕ} {r : Option LoadedObject}
  {f : File}

theorem totalSize_lt (phs : List Phdr) : totalSize phs < 4294967296 := by
  unfold totalSize pageUp pageDown u32
  omega

/-- Loading changes nothing, or maps a library. -/
theorem mapSharedObject_mapped (h : mapSharedObject fuel env t soname = some (t1, r))
    (ht : Ready t) (hv : ∀ v ∈ t1.mapped, InSpace v) :
    (r = none ∧ t1 = t ∧ ∀ f, env.fopen (libPath t.mem soname) = some f →
      File.loadable env f = true →
      sysMmap env t t.nextLoadAddr (totalSize (phdrs (hdrBuf env f))) = none) ∨
    ∃ f, Mapped fuel env t t1 soname r f := by
  rcases mapSharedObject_cases h with hsame | ⟨f, st1, hopen, hload, hmap, hreg⟩
  · exact .inl hsame
  refine .inr ⟨f, ?_⟩
  have hlow := ht.low
  have hal := ht.aligned
  have hhigh := ht.high
  have hwhole : 4096 ∣ totalSize (phdrs (hdrBuf env f)) := dvd_pageUp _
  have hlt := totalSize_lt (phdrs (hdrBuf env f))
  have hup : pageUp (totalSize (phdrs (hdrBuf env f))) = totalSize (phdrs (hdrBuf env f)) :=
    pageUp_of_dvd hwhole (by omega)
  have h0 : totalSize (phdrs (hdrBuf env f)) ≠ 0 := by
    intro h0
    unfold sysMmap at hmap
    rw [if_pos h0] at hmap
    cases hmap
  rw [sysMmap_eq (by unfold kernelSpaceEnd; omega) hal h0, hup] at hmap
  split at hmap
  · next hframes =>
    cases hmap
    -- The range is recorded with its end, so the end tells that nothing wrapped.
    have hin := hv (t.nextLoadAddr, u32 (t.nextLoadAddr+totalSize (phdrs (hdrBuf env f))))
      (by rw [(registerObject_mem hreg).2.1]; exact List.mem_cons_self)
    have hsum : u32 (t.nextLoadAddr+totalSize (phdrs (hdrBuf env f))) =
        t.nextLoadAddr+totalSize (phdrs (hdrBuf env f)) := by
      have h1 := hin.1
      dsimp only at h1
      unfold u32 at h1 ⊢
      omega
    have hspace := hin.2
    rw [hsum] at hspace
    refine ⟨hopen, hload, hspace, hwhole, hframes, h0, ?_⟩
    unfold mappedState at hreg
    rw [hsum, pageUp_of_dvd (Nat.dvd_add hal hwhole) (by omega), u32_of_lt (by omega)] at hreg
    exact hreg
  · cases hmap

/-- What a segment copies stays inside the mapping. -/
theorem Mapped.copied_inside (h : Mapped fuel env t t1 soname r f)
    (hfit : Fits (phdrs (hdrBuf env f))) {ph : Phdr} (hp : ph ∈ phdrs (hdrBuf env f))
    (hc : copied f ph ≠ 0) : t.nextLoadAddr ≤ u32 (ph.pVaddr+t.nextLoadAddr) ∧
      u32 (ph.pVaddr+t.nextLoadAddr)+copied f ph ≤
        t.nextLoadAddr+totalSize (phdrs (hdrBuf env f)) := by
  have hl : ph.pType = ptLoad := by
    by_contra hne
    exact hc (if_neg hne)
  have hin := segment_le_totalSize hfit hp hl
  have hle := copied_le f ph
  have hf := (hfit ph hp hl).1
  have hs := h.space
  rw [u32_of_lt (by omega)]
  omega

theorem Mapped.mem (h : Mapped fuel env t t1 soname r f) : t1.mem =
    copySegments f t.nextLoadAddr (place t.mem t.nextLoadAddr
      (totalSize (phdrs (hdrBuf env f))) fun _ => 0) (phdrs (hdrBuf env f)) :=
  (registerObject_mem h.register).1

theorem Mapped.mapped (h : Mapped fuel env t t1 soname r f) : t1.mapped =
    (t.nextLoadAddr, t.nextLoadAddr+totalSize (phdrs (hdrBuf env f)))::t.mapped :=
  (registerObject_mem h.register).2.1

theorem Mapped.next (h : Mapped fuel env t t1 soname r f) : t1.nextLoadAddr =
    t.nextLoadAddr+totalSize (phdrs (hdrBuf env f))+4096 :=
  (registerObject_mem h.register).2.2

theorem Mapped.objects (h : Mapped fuel env t t1 soname r f) :
    (r = none ∧ t1.objects = t.objects) ∨
      ∃ obj, r = some obj ∧ t1.objects = t.objects++[obj] ∧ obj.loadBias = t.nextLoadAddr ∧
        obj.name = .ptr soname := by
  rcases registerObject_some h.register with ⟨hr, rfl⟩ | ⟨obj, hr, rfl, hb, -, hn⟩
  · exact .inl ⟨hr, rfl⟩
  · exact .inr ⟨obj, hr, rfl, hb, hn⟩

/-- Nothing outside the mapping changes. -/
theorem Mapped.frame (h : Mapped fuel env t t1 soname r f) (hfit : Fits (phdrs (hdrBuf env f)))
    {k : ℕ} (hk : k < t.nextLoadAddr ∨ t.nextLoadAddr+totalSize (phdrs (hdrBuf env f)) ≤ k) :
    t1.mem k = t.mem k := by
  rw [h.mem, copySegments_ne, place_ne _ _ hk]
  intro ph hp
  by_cases hc : copied f ph = 0
  · omega
  · have := h.copied_inside hfit hp hc
    omega

theorem Mapped.ready (h : Mapped fuel env t t1 soname r f) (ht : Ready t) : Ready t1 := by
  have hs := h.space
  have hw := h.whole
  have hlow := ht.low
  have hal := ht.aligned
  have hnext := h.next
  refine ⟨by rw [hnext]; omega, by omega, by omega, ?_, ?_, ?_⟩
  · intro v hv
    rw [h.mapped] at hv
    rcases List.mem_cons.mp hv with rfl | hv
    · dsimp only
      omega
    · have := ht.mapped v hv
      omega
  · rcases h.objects with ⟨-, he⟩ | ⟨obj, -, he, -⟩
    · rw [he]
      exact ht.registered
    · rw [he]
      simp
  · intro o ho
    rcases h.objects with ⟨-, he⟩ | ⟨obj, -, he, hb, -⟩
    · rw [he] at ho
      have := ht.biases o ho
      omega
    · rw [he, List.tail_append_of_ne_nil ht.registered, List.mem_append] at ho
      rcases ho with ho | ho
      · have := ht.biases o ho
        omega
      · rw [List.mem_singleton.mp ho]
        omega

/-- A byte that libraries still to be loaded leave alone. -/
def Settled (t img : State) (k : ℕ) : Prop :=
  k < t.nextLoadAddr ∨ ∀ v ∈ img.mapped, k < v.1 ∨ v.2 ≤ k

/-- The image contains what is loaded so far. -/
structure Extends (t img : State) : Prop where
  objects : ∃ more, img.objects = t.objects++more
  mapped : ∃ new, img.mapped = new++t.mapped ∧ ∀ v ∈ new, t.nextLoadAddr ≤ v.1
  mem : AgreeOn (Settled t img) t.mem img.mem

theorem Extends.refl (img : State) : Extends img img :=
  ⟨⟨[], (List.append_nil _).symm⟩, ⟨[], rfl, fun _ h => by cases h⟩, fun _ _ => rfl⟩

theorem Mapped.extends (h : Mapped fuel env t t1 soname r f) (hfit : Fits (phdrs (hdrBuf env f)))
    (he : Extends t1 img) : Extends t img := by
  obtain ⟨more, hmore⟩ := he.objects
  obtain ⟨new, hnew, hlow⟩ := he.mapped
  have hnext := h.next
  refine ⟨?_, ⟨new++[(t.nextLoadAddr, t.nextLoadAddr+totalSize (phdrs (hdrBuf env f)))], ?_, ?_⟩,
    ?_⟩
  · rcases h.objects with ⟨-, ho⟩ | ⟨obj, -, ho, -⟩
    · exact ⟨more, by rw [hmore, ho]⟩
    · exact ⟨obj::more, by rw [hmore, ho, List.append_assoc, List.singleton_append]⟩
  · rw [hnew, h.mapped, List.append_assoc, List.singleton_append]
  · intro v hv
    rcases List.mem_append.mp hv with hv | hv
    · have := hlow v hv
      omega
    · rw [List.mem_singleton.mp hv]
  · intro k hk
    have hv : (t.nextLoadAddr, t.nextLoadAddr+totalSize (phdrs (hdrBuf env f))) ∈ img.mapped := by
      rw [hnew, h.mapped]
      exact List.mem_append_right new List.mem_cons_self
    have hout : k < t.nextLoadAddr ∨ t.nextLoadAddr+totalSize (phdrs (hdrBuf env f)) ≤ k :=
      hk.elim .inl fun hk => hk _ hv
    rw [he.mem k (hk.imp_left fun hk => by omega), h.frame hfit hout]

theorem mapOnly_some (h : mapOnly fuel env t soname = some t1) :
    (∀ f, env.fopen (libPath t.mem soname) = some f → Fits (phdrs (hdrBuf env f))) ∧
      ∃ r, mapSharedObject fuel env t soname = some (t1, r) := by
  unfold mapOnly at h
  split at h
  · next hfit =>
    obtain ⟨⟨t2, r⟩, h2, rfl⟩ := Option.map_eq_some_iff.mp h
    refine ⟨fun f hf => ?_, r, h2⟩
    unfold segmentsFit at hfit
    rw [hf] at hfit
    exact of_decide_eq_true hfit
  · cases h

/-- One turn of the loop on the image. -/
theorem loadNeeded_cases {load : State → ℕ → Option State} {strtab n d : ℕ}
    (h : loadNeeded load fuel strtab (n+1) t d = some img) :
    (read32 t.mem d = 0 ∧ img = t) ∨
    (read32 t.mem d ≠ 0 ∧ loadNeeded load fuel strtab n t (d+8) = some img ∧
      (read32 t.mem d = dtNeeded ∧ strtab ≠ 0 →
        already fuel t.mem (strtab+read32 t.mem (d+4)) t.objects = some true)) ∨
    (read32 t.mem d = dtNeeded ∧ strtab ≠ 0 ∧
      already fuel t.mem (strtab+read32 t.mem (d+4)) t.objects = some false ∧
      ∃ t1, load t (strtab+read32 t.mem (d+4)) = some t1 ∧
        loadNeeded load fuel strtab n t1 (d+8) = some img) := by
  unfold loadNeeded at h
  split at h
  · next h0 => exact .inl ⟨h0, (Option.some.inj h).symm⟩
  next h0 =>
  split at h
  · next hn =>
    dsimp only at h
    split at h
    · cases h
    · next ha => exact .inr (.inl ⟨h0, h, fun _ => ha⟩)
    · next ha =>
      obtain ⟨t1, h1, h2⟩ := Option.bind_eq_some_iff.mp h
      exact .inr (.inr ⟨hn.1, hn.2, ha, t1, h1, h2⟩)
  · next hn => exact .inr (.inl ⟨h0, h, fun hc => absurd hc hn⟩)

/-- Mapped ranges are never dropped. -/
theorem loadNeeded_mapped {strtab n d : ℕ}
    (h : loadNeeded (mapOnly fuel env) fuel strtab n t d = some img) :
    ∀ v ∈ t.mapped, v ∈ img.mapped := by
  induction n generalizing t d with
  | zero => cases h
  | succ n ih =>
    rcases loadNeeded_cases h with ⟨-, rfl⟩ | ⟨-, h, -⟩ | ⟨-, -, -, t1, h1, h⟩
    · exact fun _ hv => hv
    · exact ih h
    · intro v hv
      refine ih h v ?_
      obtain ⟨-, r, h1⟩ := mapOnly_some h1
      rcases mapSharedObject_cases h1 with ⟨-, rfl, -⟩ | ⟨f, st1, -, -, hmap, hreg⟩
      · exact hv
      · rw [(registerObject_mem hreg).2.1]
        exact sysMmap_mapped hmap v hv

theorem loadNeeded_extends {strtab n d : ℕ} (hv : ∀ v ∈ img.mapped, InSpace v)
    (h : loadNeeded (mapOnly fuel env) fuel strtab n t d = some img) (ht : Ready t) :
    Extends t img := by
  induction n generalizing t d with
  | zero => cases h
  | succ n ih =>
    rcases loadNeeded_cases h with ⟨-, rfl⟩ | ⟨-, h2, -⟩ | ⟨-, -, -, t1, h1, h2⟩
    · exact Extends.refl img
    · exact ih h2 ht
    · obtain ⟨hfit, r, h1⟩ := mapOnly_some h1
      rcases mapSharedObject_mapped h1 ht fun v hm => hv v (loadNeeded_mapped h2 v hm)
        with ⟨-, rfl, -⟩ | ⟨f, hm⟩
      · exact ih h2 ht
      · exact hm.extends (hfit f hm.opened) (ih h2 (hm.ready ht))

theorem loadNeeded_ready {strtab n d : ℕ} (hv : ∀ v ∈ img.mapped, InSpace v)
    (h : loadNeeded (mapOnly fuel env) fuel strtab n t d = some img) (ht : Ready t) :
    Ready img := by
  induction n generalizing t d with
  | zero => cases h
  | succ n ih =>
    rcases loadNeeded_cases h with ⟨-, rfl⟩ | ⟨-, h2, -⟩ | ⟨-, -, -, t1, h1, h2⟩
    · exact ht
    · exact ih h2 ht
    · obtain ⟨-, r, h1⟩ := mapOnly_some h1
      rcases mapSharedObject_mapped h1 ht fun v hm => hv v (loadNeeded_mapped h2 v hm)
        with ⟨-, rfl, -⟩ | ⟨f, hm⟩
      · exact ih h2 ht
      · exact ih h2 (hm.ready ht)

/-! ## What an object owns -/

variable {o : LoadedObject}

/-- The tables and targets of a registered object are out of reach of the loads
still to come. -/
theorem owned (hL : Layout fuel img) (ht : Ready t) (he : Extends t img) (ho : o ∈ t.objects) :
    (∃ v ∈ t.mapped, v.2 ≤ t.nextLoadAddr ∧
      (∀ tb ∈ tables fuel img.mem o, v.1 ≤ tb.1 ∧ tb.1+tb.2 ≤ v.2) ∧
      ∀ r ∈ relocs fuel img.mem o, v.1 ≤ o.target r ∧ o.target r+4 ≤ v.2) ∨
    ∀ v ∈ img.mapped, (∀ tb ∈ tables fuel img.mem o, RangesApart tb.1 tb.2 v.1 (v.2-v.1)) ∧
      ∀ r ∈ relocs fuel img.mem o, RangesApart (o.target r) 4 v.1 (v.2-v.1) := by
  obtain ⟨more, hmore⟩ := he.objects
  obtain ⟨app, libs, hobjs⟩ := List.exists_cons_of_ne_nil ht.registered
  rw [hobjs] at ho hmore
  rcases List.mem_cons.mp ho with rfl | ho
  · exact .inr (hL.application o (by rw [hmore]; rfl))
  · obtain ⟨v, hv, hb, htab, htgt⟩ := hL.libraries o (by
      rw [hmore]
      exact List.mem_append_left more ho)
    obtain ⟨new, hnew, hlow⟩ := he.mapped
    have hbias := ht.biases o (by rw [hobjs]; exact ho)
    rw [hnew] at hv
    rcases List.mem_append.mp hv with hv | hv
    · have := hlow v hv
      omega
    · exact .inl ⟨v, hv, ht.mapped v hv, htab, htgt⟩

theorem owned_tables (hL : Layout fuel img) (ht : Ready t) (he : Extends t img)
    (ho : o ∈ t.objects) : TablesKept fuel img.mem (Settled t img) o := by
  intro tb htb k h0 h1
  rcases owned hL ht he ho with ⟨v, -, hv, htab, -⟩ | hout
  · have := htab tb htb
    exact .inl (by omega)
  · refine .inr fun v hv => ?_
    have hsp := (hL.ranges v hv).1
    have := (hout v hv).1 tb htb
    unfold RangesApart at this
    omega

/-- A target of a registered object is apart from a range mapped later. -/
theorem owned_target (hL : Layout fuel img) (ht : Ready t) (he : Extends t img)
    (ho : o ∈ t.objects) {r : Rel} (hr : r ∈ relocs fuel img.mem o) {v : ℕ × ℕ}
    (hv : v ∈ img.mapped) (hlow : t.nextLoadAddr ≤ v.1) : o.target r+4 ≤ v.1 ∨ v.2 ≤ o.target r := by
  rcases owned hL ht he ho with ⟨w, -, hw, -, htgt⟩ | hout
  · have := htgt r hr
    exact .inl (by omega)
  · have hsp := (hL.ranges v hv).1
    have := (hout v hv).2 r hr
    unfold RangesApart at this
    omega

/-! ## The patches made while loading -/

/-- The relative entries of `DT_REL`, as `load_shared_object` applies them. -/
def relativePatches (fuel : ℕ) (m : Memory) (obj : LoadedObject) : List Patch :=
  ((rels fuel m obj).filter fun r => r.type == r386Relative).map fun r =>
    ⟨obj.target r, addBias obj.loadBias⟩

def loadPatches (fuel : ℕ) (img : State) (objs : List LoadedObject) : List Patch :=
  objs.flatMap (relativePatches fuel img.mem)

def patched (t : State) (ps : List Patch) : State := { t with mem := applyAll t.mem ps }

theorem mem_relocs_of_relative {m : Memory} {r : Rel} (hr : r ∈ rels fuel m o)
    (ht : r.type = r386Relative) : r ∈ relocs fuel m o :=
  List.mem_filter.mpr ⟨List.mem_append_left _ hr, by simp [Rel.handled, ht]⟩

theorem mem_relativePatches {m : Memory} {p : Patch} (h : p ∈ relativePatches fuel m o) :
    ∃ r ∈ relocs fuel m o, p.addr = o.target r := by
  obtain ⟨r, hr, rfl⟩ := List.mem_map.mp h
  obtain ⟨hr, ht⟩ := List.mem_filter.mp hr
  exact ⟨r, mem_relocs_of_relative hr (by simpa using ht), rfl⟩

theorem mem_loadPatches {objs : List LoadedObject} {p : Patch}
    (h : p ∈ loadPatches fuel img objs) :
    ∃ o ∈ objs, ∃ r ∈ relocs fuel img.mem o, p.addr = o.target r := by
  obtain ⟨o, ho, hp⟩ := List.mem_flatMap.mp h
  exact ⟨o, ho, mem_relativePatches hp⟩

/-- Patches to targets leave the other bytes alone. -/
theorem agreeOn_applyAll {ps : List Patch} (m : Memory)
    (h : ∀ p ∈ ps, p.addr ∈ targets fuel img) : AgreeOn (Kept fuel img) m (applyAll m ps) :=
  fun _ hk => applyAll_ne fun p hp => hk p.addr (h p hp)

theorem agreeOn_apply {p : Patch} {m : Memory} {K : ℕ → Prop}
    (hK : ∀ k, K k → Kept fuel img k) (hm : AgreeOn K img.mem m)
    (hp : p.addr ∈ targets fuel img) : AgreeOn K img.mem (p.apply m) := by
  intro k hk
  rw [apply_ne (hK k hk p.addr hp), hm k hk]

/-- The loop over relative entries makes the relative patches. -/
theorem relocateRelative_eq {m : Memory} {K : ℕ → Prop} (hL : Layout fuel img)
    (ho : o ∈ img.objects) (hK : ∀ k, K k → Kept fuel img k)
    (htab : TablesKept fuel img.mem K o) (hm : AgreeOn K img.mem m) :
    relocateRelative fuel m o = some (applyAll m (relativePatches fuel img.mem o)) := by
  unfold relocateRelative
  by_cases hz : o.dynamic = 0
  · have hnil : relativePatches fuel img.mem o = [] := by
      simp [relativePatches, rels, dynamicOf, hz, pointerOf, lastOf, relsAt]
    rw [if_pos hz, hnil, applyAll_nil]
  rw [if_neg hz, entries_kept hm htab hz (hL.dynamic o ho hz), Option.map_some]
  congr 1
  dsimp only
  have hin : ∀ r ∈ rels fuel img.mem o, r.type = r386Relative → o.target r ∈ targets fuel img :=
    fun r hr ht => mem_targets ho (mem_relocs_of_relative hr ht)
  have hkept := fun h => htab _ (rel_mem_tables img.mem h)
  unfold relativePatches
  unfold rels at hin ⊢
  generalize pointerOf dtRel o.loadBias (dynamicOf fuel img.mem o) = rel at hin hkept ⊢
  generalize valueOf dtRelsz (dynamicOf fuel img.mem o) = sz at hin hkept ⊢
  unfold relsAt at hin ⊢
  by_cases hnone : rel = 0 ∨ sz = 0
  · rw [if_pos hnone, if_pos hnone]
    rfl
  rw [if_neg hnone] at hin
  rw [if_neg hnone, if_neg hnone]
  push Not at hnone
  have hbound : ∀ i ∈ List.range (sz/8), i < sz/8 := fun i hi => List.mem_range.mp hi
  -- Along the table, each entry is still the one of the image.
  generalize List.range (sz/8) = is at hin hbound ⊢
  induction is generalizing m with
  | nil => rfl
  | cons i is ih =>
    have hi := hbound i List.mem_cons_self
    rw [List.foldl_cons, List.map_cons, relAt_kept hm (hkept hnone.1) hi]
    have hin' := fun r hr => hin r (List.mem_cons_of_mem _ hr)
    have hbound' := fun j hj => hbound j (List.mem_cons_of_mem i hj)
    unfold applyRelative
    by_cases ht : (relAt img.mem (rel+8*i)).type = r386Relative
    · rw [if_pos ht, List.filter_cons_of_pos (by simpa using ht), List.map_cons, applyAll_cons]
      have hstep : AgreeOn K img.mem
          (Patch.apply m ⟨o.target (relAt img.mem (rel+8*i)), addBias o.loadBias⟩) :=
        agreeOn_apply hK hm (hin _ List.mem_cons_self ht)
      exact ih hstep hin' hbound'
    · rw [if_neg ht, List.filter_cons_of_neg (by simpa using ht)]
      exact ih hm hin' hbound'

/-! ## The loop with relocation -/

theorem loadPatches_append (fuel : ℕ) (img : State) (os : List LoadedObject)
    (o : LoadedObject) : loadPatches fuel img (os++[o]) =
      loadPatches fuel img os++relativePatches fuel img.mem o := by
  unfold loadPatches
  rw [List.flatMap_append, List.flatMap_singleton]

/-- Registering in patched memory, when the tables read are not patched. -/
theorem registerObject_patched (img : State) {st : State} {name : CStr} {bias dyn : ℕ} {ps : List Patch}
    (h : registerObject fuel st name bias dyn = some (t1, r))
    (hkeep : ∀ obj, r = some obj → obj.dynamic = dyn → obj.loadBias = bias → dyn ≠ 0 →
      entriesFrom st.mem fuel dyn = some (dynamicOf fuel img.mem obj) ∧
      entriesFrom (applyAll st.mem ps) fuel dyn = some (dynamicOf fuel img.mem obj) ∧
      ∀ a, pointerOf dtHash bias (dynamicOf fuel img.mem obj) = a → a ≠ 0 →
        read32 (applyAll st.mem ps) (a+4) = read32 st.mem (a+4)) :
    registerObject fuel (patched st ps) name bias dyn = some (patched t1 ps, r) := by
  unfold registerObject at h ⊢
  by_cases hfull : maxObjects ≤ st.objects.length
  · rw [if_pos hfull] at h
    cases h
    exact if_pos hfull
  have hfull' : ¬maxObjects ≤ (patched st ps).objects.length := hfull
  rw [if_neg hfull] at h
  rw [if_neg hfull']
  by_cases hd : dyn = 0
  · rw [if_pos hd] at h ⊢
    cases h
    rfl
  rw [if_neg hd] at h ⊢
  obtain ⟨es, hes, he⟩ := Option.map_eq_some_iff.mp h
  cases he
  obtain ⟨h1, h2, h3⟩ := hkeep _ rfl rfl rfl hd
  rw [hes, Option.some.injEq] at h1
  rw [← h1] at h2 h3
  have h2' : entriesFrom (patched st ps).mem fuel dyn = some es := h2
  rw [h2', Option.map_some]
  have hobj : objectOf (patched st ps).mem name bias dyn es = objectOf st.mem name bias dyn es := by
    unfold objectOf
    by_cases hz : pointerOf dtHash bias es = 0
    · rw [if_pos hz, if_pos hz]
    · rw [if_neg hz, if_neg hz, ← h3 _ rfl hz]
      rfl
  rw [hobj]
  rfl

/-- The patches of registered objects stay out of a library mapped next. -/
theorem Mapped.patches_apart (hL : Layout fuel img) (ht : Ready t)
    (h : Mapped fuel env t t1 soname r f) (hfit : Fits (phdrs (hdrBuf env f)))
    (he : Extends t1 img) {p : Patch} (hp : p ∈ loadPatches fuel img t.objects) :
    p.addr+4 ≤ t.nextLoadAddr ∨ t.nextLoadAddr+totalSize (phdrs (hdrBuf env f)) ≤ p.addr := by
  obtain ⟨o, ho, q, hq, hpa⟩ := mem_loadPatches hp
  obtain ⟨new, hnew, -⟩ := he.mapped
  have hv : (t.nextLoadAddr, t.nextLoadAddr+totalSize (phdrs (hdrBuf env f))) ∈ img.mapped := by
    rw [hnew, h.mapped]
    exact List.mem_append_right new List.mem_cons_self
  rw [hpa]
  exact owned_target hL ht (h.extends hfit he) ho hq hv le_rfl

/-- Mapping in patched memory: the patches may be made behind the copy. -/
theorem Mapped.placed_patched (h : Mapped fuel env t t1 soname r f)
    (hfit : Fits (phdrs (hdrBuf env f))) {ps : List Patch}
    (hps : ∀ p ∈ ps, p.addr+4 ≤ t.nextLoadAddr ∨
      t.nextLoadAddr+totalSize (phdrs (hdrBuf env f)) ≤ p.addr) :
    placed env f (patched t ps) = patched (placed env f t) ps := by
  have hmem : copySegments f t.nextLoadAddr (place (applyAll t.mem ps) t.nextLoadAddr
      (totalSize (phdrs (hdrBuf env f))) fun _ => 0) (phdrs (hdrBuf env f)) =
      applyAll (copySegments f t.nextLoadAddr (place t.mem t.nextLoadAddr
        (totalSize (phdrs (hdrBuf env f))) fun _ => 0) (phdrs (hdrBuf env f))) ps := by
    rw [place_applyAll _ _ _ hps, copySegments_applyAll]
    intro ph hph hc p hp
    have := h.copied_inside hfit hph hc
    have := hps p hp
    omega
  unfold placed patched
  dsimp only
  rw [hmem]

/-- Mapping and copying again, from a state that differs in memory. -/
theorem Mapped.again (h : Mapped fuel env t t1 soname r f) (ht : Ready t) {s : State}
    (hmapped : s.mapped = t.mapped) (hnext : s.nextLoadAddr = t.nextLoadAddr)
    (hpath : libPath s.mem soname = libPath t.mem soname) :
    mapSharedObject fuel env s soname = registerObject fuel (placed env f s) (.ptr soname)
      t.nextLoadAddr (dynamicAt (phdrs (hdrBuf env f)) t.nextLoadAddr) := by
  have hlow := ht.low
  have hspace := h.space
  have hup := pageUp_of_dvd h.whole (by omega)
  obtain ⟨m, mapped, objects, next⟩ := s
  dsimp only at hmapped hnext hpath
  subst hmapped hnext
  have hsys : sysMmap env ⟨m, t.mapped, objects, t.nextLoadAddr⟩ t.nextLoadAddr
      (totalSize (phdrs (hdrBuf env f))) = some
        { mem := place m t.nextLoadAddr (totalSize (phdrs (hdrBuf env f))) fun _ => 0
          mapped := (t.nextLoadAddr, t.nextLoadAddr+totalSize (phdrs (hdrBuf env f)))::t.mapped
          objects := objects
          nextLoadAddr := t.nextLoadAddr } := by
    rw [sysMmap_eq (by unfold kernelSpaceEnd; omega) ht.aligned h.positive, hup,
      if_pos h.framed, u32_of_lt (by omega)]
  have hend : u32 (pageUp (t.nextLoadAddr+totalSize (phdrs (hdrBuf env f)))+4096) =
      t.nextLoadAddr+totalSize (phdrs (hdrBuf env f))+4096 := by
    rw [pageUp_of_dvd (Nat.dvd_add ht.aligned h.whole) (by omega), u32_of_lt (by omega)]
  unfold mapSharedObject
  dsimp only
  rw [hpath, h.opened]
  dsimp only
  rw [if_pos h.loadable, hsys]
  dsimp only
  rw [hend]
  rfl

/-- Bytes of no target that later loads leave alone. -/
def Firm (fuel : ℕ) (t img : State) (k : ℕ) : Prop := Kept fuel img k ∧ Settled t img k

theorem Extends.mem_objects (he : Extends t img) (ho : o ∈ t.objects) : o ∈ img.objects := by
  obtain ⟨more, hmore⟩ := he.objects
  rw [hmore]
  exact List.mem_append_left more ho

theorem firm_tables (hL : Layout fuel img) (ht : Ready t) (he : Extends t img)
    (ho : o ∈ t.objects) : TablesKept fuel img.mem (Firm fuel t img) o := fun tb htb k h0 h1 =>
  ⟨hL.tables_kept (he.mem_objects ho) tb htb k h0 h1, owned_tables hL ht he ho tb htb k h0 h1⟩

theorem firm_mem (he : Extends t img) : AgreeOn (Firm fuel t img) img.mem t.mem :=
  fun k hk => (he.mem k hk.2).symm

theorem loadPatches_targets {objs : List LoadedObject} (h : ∀ o ∈ objs, o ∈ img.objects)
    {p : Patch} (hp : p ∈ loadPatches fuel img objs) : p.addr ∈ targets fuel img := by
  obtain ⟨o, ho, r, hr, hpa⟩ := mem_loadPatches hp
  rw [hpa]
  exact mem_targets (h o ho) hr

/-- Patched memory still agrees with the image where both are firm. -/
theorem firm_patched (he : Extends t img) {ps : List Patch}
    (h : ∀ p ∈ ps, p.addr ∈ targets fuel img) :
    AgreeOn (Firm fuel t img) img.mem (applyAll t.mem ps) := by
  intro k hk
  rw [agreeOn_applyAll t.mem h k hk.1, firm_mem he k hk]

/-- The library is registered alike in patched memory. -/
theorem Mapped.register_patched (hL : Layout fuel img) (ht : Ready t)
    (h : Mapped fuel env t t1 soname r f) (he : Extends t1 img) {ps : List Patch}
    (hps : ∀ p ∈ ps, p.addr ∈ targets fuel img) :
    registerObject fuel (patched (placed env f t) ps) (.ptr soname) t.nextLoadAddr
      (dynamicAt (phdrs (hdrBuf env f)) t.nextLoadAddr) = some (patched t1 ps, r) := by
  refine registerObject_patched img h.register fun obj hr hdyn hbias hz => ?_
  have hobj : obj ∈ t1.objects := by
    rcases h.objects with ⟨h0, -⟩ | ⟨obj', h0, ho, -⟩
    · rw [h0] at hr
      cases hr
    · rw [h0] at hr
      cases hr
      rw [ho]
      exact List.mem_append_right _ (List.mem_singleton.mpr rfl)
  have htab := firm_tables hL (h.ready ht) he hobj
  have hd := hL.dynamic obj (he.mem_objects hobj)
  have hm : (placed env f t).mem = t1.mem := (registerObject_mem h.register).1.symm
  rw [hm, ← hdyn] at *
  refine ⟨entries_kept (firm_mem he) htab hz (hd hz),
    entries_kept (firm_patched he hps) htab hz (hd hz), ?_⟩
  intro a ha ha0
  rw [← hbias] at ha
  have hhash := htab _ (hash_mem_tables img.mem (ha ▸ ha0))
  rw [ha] at hhash
  have hw : Within (Firm fuel t1 img) (a+4) 4 := hhash.mono (by omega) (by omega)
  rw [(firm_patched he hps).read32 hw, (firm_mem he).read32 hw]

/-- Loading a library in the patched state gives the patched state of the image,
the new library's relative entries among the patches. -/
theorem loadSharedObject_patched (hL : Layout fuel img) (ht : Ready t)
    (h1 : mapOnly fuel env t soname = some t1) (he : Extends t1 img)
    (hv : ∀ v ∈ t1.mapped, InSpace v)
    (hpath : libPath (applyAll t.mem (loadPatches fuel img t.objects)) soname =
      libPath t.mem soname) :
    loadSharedObject fuel env (patched t (loadPatches fuel img t.objects)) soname =
      some (patched t1 (loadPatches fuel img t1.objects)) := by
  obtain ⟨hfit, r, hmap⟩ := mapOnly_some h1
  rcases mapSharedObject_mapped hmap ht hv with ⟨-, rfl, hnone⟩ | ⟨f, hm⟩
  · have hsame : mapSharedObject fuel env (patched t1 (loadPatches fuel img t1.objects)) soname =
        some (patched t1 (loadPatches fuel img t1.objects), none) := by
      unfold mapSharedObject patched
      dsimp only
      rw [hpath]
      cases hf : env.fopen (libPath t1.mem soname) with
      | none => rfl
      | some f =>
        dsimp only
        split
        · next hl =>
          rw [sysMmap_none (applyAll t1.mem (loadPatches fuel img t1.objects)) (hnone f hf hl)]
        · rfl
    unfold loadSharedObject
    rw [hsame]
  · have hfit := hfit f hm.opened
    have het := hm.extends hfit he
    have hps : ∀ p ∈ loadPatches fuel img t.objects, p.addr ∈ targets fuel img :=
      fun p hp => loadPatches_targets (fun o ho => het.mem_objects ho) hp
    have hmapped : mapSharedObject fuel env (patched t (loadPatches fuel img t.objects)) soname =
        some (patched t1 (loadPatches fuel img t.objects), r) := by
      rw [hm.again ht (s := patched t _) rfl rfl hpath,
        hm.placed_patched hfit fun p hp => hm.patches_apart hL ht hfit he hp]
      exact hm.register_patched hL ht he hps
    unfold loadSharedObject
    rw [hmapped]
    rcases hm.objects with ⟨rfl, ho⟩ | ⟨obj, rfl, ho, -⟩
    · rw [ho]
    · have hobj : obj ∈ t1.objects := by
        rw [ho]
        exact List.mem_append_right _ (List.mem_singleton.mpr rfl)
      have hrel := relocateRelative_eq hL (he.mem_objects hobj) (fun _ hk => hk.1)
        (firm_tables hL (hm.ready ht) he hobj) (firm_patched he hps)
      have hrel' : relocateRelative fuel (patched t1 (loadPatches fuel img t.objects)).mem obj =
          some (applyAll t1.mem (loadPatches fuel img t1.objects)) := by
        rw [ho, loadPatches_append, applyAll_append]
        exact hrel
      dsimp only
      rw [hrel']
      rfl

/-- Bytes of no target and of no mapping: the application's own. -/
def Lasting (fuel : ℕ) (img : State) (k : ℕ) : Prop :=
  Kept fuel img k ∧ ∀ v ∈ img.mapped, k < v.1 ∨ v.2 ≤ k

theorem Lasting.firm {k : ℕ} (h : Lasting fuel img k) : Firm fuel t img k := ⟨h.1, .inr h.2⟩

theorem lasting_mem (he : Extends t img) {ps : List Patch}
    (h : ∀ p ∈ ps, p.addr ∈ targets fuel img) :
    AgreeOn (Lasting fuel img) img.mem (applyAll t.mem ps) :=
  fun k hk => firm_patched he h k hk.firm

theorem already_congr {m m' : Memory} {K : ℕ → Prop} {n : ℕ} {objs : List LoadedObject}
    (h : AgreeOn K m m') (hs : Ends m K n (.ptr soname))
    (ho : ∀ o ∈ objs, ∃ l, Ends m K l o.name) :
    already fuel m' soname objs = already fuel m soname objs := by
  induction objs with
  | nil => rfl
  | cons o objs ih =>
    obtain ⟨l, hl⟩ := ho o List.mem_cons_self
    unfold already
    rw [strEq_congr h hl hs, ih fun q hq => ho q (List.mem_cons_of_mem o hq)]

/-- The `DT_NEEDED` loop with relocation ends in the image with the relative
patches of every object. -/
theorem loadNeeded_patched {strtab n l d : ℕ} {rest : List (ℕ × ℕ)} (hL : Layout fuel img)
    (ht : Ready t) (h : loadNeeded (mapOnly fuel env) fuel strtab n t d = some img)
    (hent : entriesFrom img.mem l d = some rest)
    (hw : Within (Lasting fuel img) d (8*(rest.length+1)))
    (hneeded : ∀ e ∈ rest, e.1 = dtNeeded → strtab ≠ 0 →
      Ends img.mem (Lasting fuel img) fuel (.ptr (strtab+e.2)))
    (hnames : ∀ o ∈ t.objects, ∃ k, Ends img.mem (Lasting fuel img) k o.name) :
    loadNeeded (loadSharedObject fuel env) fuel strtab n
      (patched t (loadPatches fuel img t.objects)) d =
      some (patched img (loadPatches fuel img img.objects)) := by
  induction n generalizing t l d rest with
  | zero => cases h
  | succ n ih =>
    have he := loadNeeded_extends hL.ranges h ht
    have hps : ∀ p ∈ loadPatches fuel img t.objects, p.addr ∈ targets fuel img :=
      fun p hp => loadPatches_targets (fun o ho => he.mem_objects ho) hp
    have hplain : AgreeOn (Lasting fuel img) img.mem t.mem := fun k hk => firm_mem he k hk.firm
    have hpatch := lasting_mem he hps
    obtain ⟨l, rfl⟩ : ∃ l', l = l'+1 := by
      cases l with
      | zero => cases hent
      | succ l => exact ⟨l, rfl⟩
    have htag : Within (Lasting fuel img) d 4 := hw.mono le_rfl (by omega)
    have hcase := loadNeeded_cases h
    rw [hplain.read32 htag] at hcase
    unfold loadNeeded patched
    dsimp only
    rw [hpatch.read32 htag]
    by_cases h0 : read32 img.mem d = 0
    · rcases hcase with ⟨-, rfl⟩ | ⟨hne, -⟩ | ⟨hn, -⟩
      · rw [if_pos h0]
      · exact absurd h0 hne
      · rw [h0] at hn
        cases hn
    rw [if_neg h0]
    obtain ⟨rest', hrest, rfl⟩ := entriesFrom_cons h0 hent
    rw [List.length_cons] at hw
    have hval : Within (Lasting fuel img) (d+4) 4 := hw.mono (by omega) (by omega)
    have hw' : Within (Lasting fuel img) (d+8) (8*(rest'.length+1)) :=
      hw.mono (by omega) (by omega)
    have hneeded' := fun e he => hneeded e (List.mem_cons_of_mem _ he)
    rw [hplain.read32 hval] at hcase
    rw [hpatch.read32 hval]
    by_cases hn : read32 img.mem d = dtNeeded ∧ strtab ≠ 0
    · rw [if_pos hn]
      have hends := hneeded _ List.mem_cons_self hn.1 hn.2
      dsimp only at hends
      obtain ⟨soname, hso⟩ : ∃ s, strtab+read32 img.mem (d+4) = s := ⟨_, rfl⟩
      rw [hso] at hends hcase ⊢
      rw [already_congr hpatch hends hnames]
      rw [already_congr hplain hends hnames] at hcase
      rcases hcase with ⟨hz, -⟩ | ⟨-, h2, ha⟩ | ⟨-, -, ha, t1, h1, h2⟩
      · exact absurd hz h0
      · rw [ha hn]
        exact ih ht h2 hrest hw' hneeded' hnames
      · rw [ha]
        dsimp only
        have hpath : libPath (applyAll t.mem (loadPatches fuel img t.objects)) soname =
            libPath t.mem soname := by
          unfold libPath
          rw [bytesOf_congr hpatch hends, bytesOf_congr hplain hends]
        obtain ⟨hfit, r, hmap⟩ := mapOnly_some h1
        have hv1 : ∀ v ∈ t1.mapped, InSpace v := fun v hv => hL.ranges v (loadNeeded_mapped h2 v hv)
        have hready : Ready t1 ∧ ∀ o ∈ t1.objects, o ∈ t.objects ∨ o.name = .ptr soname := by
          rcases mapSharedObject_mapped hmap ht hv1 with ⟨-, rfl, -⟩ | ⟨f, hm⟩
          · exact ⟨ht, fun o ho => .inl ho⟩
          · refine ⟨hm.ready ht, fun o ho => ?_⟩
            rcases hm.objects with ⟨-, hos⟩ | ⟨obj, -, hos, -, hname⟩
            · exact .inl (hos ▸ ho)
            · rw [hos, List.mem_append, List.mem_singleton] at ho
              exact ho.imp_right fun ho => by rw [ho, hname]
        have hload := loadSharedObject_patched hL ht h1
          (loadNeeded_extends hL.ranges h2 hready.1) hv1 hpath
        unfold patched at hload
        rw [hload, Option.bind_some]
        refine ih hready.1 h2 hrest hw' hneeded' fun o ho => ?_
        rcases hready.2 o ho with ho | ho
        · exact hnames o ho
        · exact ⟨fuel, by rw [ho]; exact hends⟩
    · rw [if_neg hn]
      rcases hcase with ⟨hz, -⟩ | ⟨-, h2, -⟩ | ⟨hc, hs, -⟩
      · exact absurd hz h0
      · exact ih ht h2 hrest hw' hneeded' hnames
      · exact absurd ⟨hc, hs⟩ hn

/-! ## From the start -/

/-- Adding a bias of 0 changes no word. -/
theorem applyAll_relative_zero (m : Memory) (h : o.loadBias = 0) {l : List Rel} :
    applyAll m (l.map fun r => ⟨o.target r, addBias o.loadBias⟩) = m := by
  induction l with
  | nil => rfl
  | cons r l ih =>
    rw [List.map_cons, applyAll_cons, apply_id, ih]
    show addBias o.loadBias _ = _
    rw [h]
    exact u32_of_lt (read32_lt m _)

theorem head_mem {α : Type*} {l : List α} {a : α} (h : l.head? = some a) : a ∈ l :=
  List.mem_of_mem_head? h

theorem lasting_tables (hL : Layout fuel img) (ho : img.objects.head? = some o) :
    TablesKept fuel img.mem (Lasting fuel img) o := by
  intro tb htb k h0 h1
  refine ⟨hL.tables_kept (head_mem ho) tb htb k h0 h1, fun v hv => ?_⟩
  have hsp := (hL.ranges v hv).1
  have := (hL.application o ho v hv).1 tb htb
  unfold RangesApart at this
  omega

/-- Up to the relocations, `_ld_main` leaves the image with the relative patches. -/
theorem loadObjects_patched {m : Memory} {aux : List (ℕ × ℕ)} (hL : Layout fuel img)
    (h : imageOf fuel env m aux = some img) :
    loadObjects (loadSharedObject fuel env) fuel m aux =
      some (patched img (loadPatches fuel img img.objects)) ∧
    ∃ app, img.objects.head? = some app ∧ app.loadBias = 0 ∧ Ready img := by
  unfold imageOf loadObjects at h
  unfold loadObjects
  dsimp only at h ⊢
  obtain ⟨dyn, hdyn⟩ : ∃ d, parseDynamic m (atPhdr aux) (atPhnum aux) (atPhent aux) 0 = d :=
    ⟨_, rfl⟩
  rw [hdyn] at h ⊢
  obtain ⟨⟨t, r⟩, hreg, h⟩ := Option.bind_eq_some_iff.mp h
  rw [hreg, Option.bind_some]
  obtain ⟨app, hobjs, hbias, happdyn, hname⟩ : ∃ app, t.objects = [app] ∧ app.loadBias = 0 ∧
      app.dynamic = dyn ∧ app.name = appName := by
    rcases registerObject_some hreg with ⟨rfl, rfl⟩ | ⟨app, -, rfl, hb, hd, hn⟩
    · exfalso
      have hroom : ¬maxObjects ≤ (start m).objects.length := Nat.not_succ_le_zero 7
      unfold registerObject at hreg
      rw [if_neg hroom] at hreg
      split at hreg
      · cases hreg
      · obtain ⟨_, -, he⟩ := Option.map_eq_some_iff.mp hreg
        cases he
    · exact ⟨app, rfl, hb, hd, hn⟩
  obtain ⟨hmem, hmapped, hnext⟩ := registerObject_mem hreg
  have ht : Ready t := by
    refine ⟨?_, ?_, ?_, ?_, ?_, ?_⟩
    · rw [hnext]
      show 4096 ∣ 0x60000000
      decide
    · rw [hnext]
      exact le_rfl
    · rw [hnext]
      show 0x60000000 < 4294967296
      decide
    · rw [hmapped]
      intro v hv
      cases hv
    · rw [hobjs]
      simp
    · rw [hobjs]
      intro o ho
      cases ho
  have hzero : patched t (loadPatches fuel img t.objects) = t := by
    have hmem0 : applyAll t.mem (loadPatches fuel img t.objects) = t.mem := by
      unfold loadPatches relativePatches
      rw [hobjs, List.flatMap_singleton, applyAll_relative_zero _ hbias]
    unfold patched
    rw [hmem0]
  by_cases hd : dyn = 0
  · dsimp only at h ⊢
    rw [if_pos hd] at h ⊢
    cases h
    rw [hzero]
    exact ⟨rfl, app, by rw [hobjs]; rfl, hbias, ht⟩
  dsimp only at h ⊢
  rw [if_neg hd] at h ⊢
  obtain ⟨es, hes, h⟩ := Option.bind_eq_some_iff.mp h
  rw [hes, Option.bind_some]
  have he := loadNeeded_extends hL.ranges h ht
  have hhead : img.objects.head? = some app := by
    obtain ⟨more, hmore⟩ := he.objects
    rw [hmore, hobjs]
    rfl
  have hlast := lasting_tables hL hhead
  have hplain : AgreeOn (Lasting fuel img) img.mem t.mem := fun k hk => firm_mem he k hk.firm
  have hdynamic := hL.dynamic app (head_mem hhead) (happdyn ▸ hd)
  have heq : es = dynamicOf fuel img.mem app := by
    have := entries_kept hplain hlast (happdyn ▸ hd) hdynamic
    rw [hmem, happdyn] at this
    exact Option.some.inj (hes.symm.trans this)
  subst heq
  have himg := entries_kept (fun _ _ => rfl) hlast (happdyn ▸ hd) hdynamic
  rw [happdyn] at himg
  have htab := hlast _ (dynamic_mem_tables img.mem (happdyn ▸ hd))
  rw [happdyn] at htab
  have hneeded : ∀ e ∈ dynamicOf fuel img.mem app, e.1 = dtNeeded →
      appStrtab (dynamicOf fuel img.mem app) ≠ 0 → Ends img.mem (Lasting fuel img) fuel
        (.ptr (appStrtab (dynamicOf fuel img.mem app)+e.2)) := by
    intro e hein hen hz
    obtain ⟨hstr, hlt⟩ := hL.needed app hhead e hein hen
    rw [hstr] at hz ⊢
    exact hL.name_ends (head_mem hhead) hz hlt (hlast _ (strtab_mem_tables img.mem hz))
  have hnames : ∀ o ∈ t.objects, ∃ k, Ends img.mem (Lasting fuel img) k o.name := by
    intro o ho
    rw [hobjs, List.mem_singleton] at ho
    rw [ho, hname]
    exact ⟨_, ends_literal _⟩
  have hfinal := loadNeeded_patched hL ht h himg htab hneeded hnames
  rw [hzero] at hfinal
  exact ⟨hfinal, app, hhead, hbias, loadNeeded_ready hL.ranges h ht⟩

end Vlsmc.LdSoLoading
