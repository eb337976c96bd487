import Vlsmc.LdSo
import Vlsmc.WordPatches

/-!
# The image of a library

What mapping and copying in `load_shared_object` leave in memory: the bytes of
the file where a segment has them, zero in the rest of the mapping, and nothing
changed outside it.
-/

set_option autoImplicit false

namespace Vlsmc.LdSoImage
open Vlsmc.ByteMemory Vlsmc.Words Vlsmc.Elf Vlsmc.LdSo Vlsmc.WordPatches

/-- Skipping inside the file arrives at the offset wanted. -/
theorem skip_eq (f : File) {fuel off remaining : ℕ} (hfuel : remaining ≤ fuel)
    (h : off+remaining ≤ f.size) : skip f fuel off remaining = off+remaining := by
  induction fuel generalizing off remaining with
  | zero =>
    have h0 : remaining = 0 := by omega
    rw [h0]
    rfl
  | succ fuel ih =>
    unfold skip
    by_cases h0 : remaining = 0
    · rw [if_pos h0, h0, Nat.add_zero]
    · have ha : f.available off (min 512 remaining) = min 512 remaining := by
        unfold File.available
        omega
      simp only [ha]
      rw [if_neg h0, if_neg (by omega), ih (by omega) (by omega)]
      omega

/-- The reading loop delivers what the file has. -/
theorem readInto_eq (f : File) (m : Memory) {fuel n : ℕ} (dest off : ℕ) (hfuel : n ≤ fuel) :
    readInto f fuel m dest off n = place m dest (f.available off n) fun i => f.byte (off+i) := by
  cases fuel with
  | zero =>
    have h0 : n = 0 := by omega
    subst n
    exact (place_zero m dest _).symm
  | succ fuel =>
    have hz : ∀ (fuel : ℕ) (m : Memory) (d o r : ℕ), f.available o r = 0 →
        readInto f fuel m d o r = m := by
      intro fuel m d o r h
      cases fuel with
      | zero => rfl
      | succ fuel =>
        simp only [readInto, h, if_true, ite_self]
    unfold readInto
    by_cases h0 : n = 0
    · subst n
      rw [if_pos rfl]
      exact (place_zero m dest _).symm
    · rw [if_neg h0]
      dsimp only
      by_cases ha : f.available off n = 0
      · rw [if_pos ha, ha, place_zero]
      · rw [if_neg ha]
        apply hz
        unfold File.available at ha ⊢
        omega

/-- How many bytes of a segment reach memory. -/
def copied (f : File) (ph : Phdr) : ℕ :=
  if ph.pType = ptLoad then f.available (skip f ph.pOffset 0 ph.pOffset) ph.pFilesz else 0

theorem copied_le (f : File) (ph : Phdr) : copied f ph ≤ ph.pFilesz := by
  unfold copied File.available
  split <;> omega

theorem copied_inside {f : File} {ph : Phdr} (hl : ph.pType = ptLoad)
    (h : ph.pOffset+ph.pFilesz ≤ f.size) : copied f ph = ph.pFilesz := by
  unfold copied File.available
  rw [if_pos hl, skip_eq f le_rfl (by omega)]
  omega

theorem copySegment_eq (f : File) (bias : ℕ) (m : Memory) (ph : Phdr) :
    copySegment f bias m ph = place m (u32 (ph.pVaddr+bias)) (copied f ph)
      fun i => f.byte (skip f ph.pOffset 0 ph.pOffset+i) := by
  unfold copySegment copied
  by_cases hl : ph.pType = ptLoad
  · rw [if_neg (by simpa using hl), if_pos hl]
    by_cases hz : ph.pFilesz = 0
    · rw [if_pos hz, hz]
      exact (place_zero m _ _).symm
    · rw [if_neg hz, readInto_eq f m _ _ le_rfl]
  · rw [if_pos hl, if_neg hl, place_zero]

@[simp] theorem copySegments_nil (f : File) (bias : ℕ) (m : Memory) :
    copySegments f bias m [] = m := rfl

@[simp] theorem copySegments_cons (f : File) (bias : ℕ) (m : Memory) (ph : Phdr)
    (phs : List Phdr) :
    copySegments f bias m (ph::phs) = copySegments f bias (copySegment f bias m ph) phs := rfl

/-- A byte that no segment's file part covers. -/
theorem copySegments_ne {f : File} {bias k : ℕ} {phs : List Phdr} {m : Memory}
    (h : ∀ ph ∈ phs, k < u32 (ph.pVaddr+bias) ∨ u32 (ph.pVaddr+bias)+copied f ph ≤ k) :
    copySegments f bias m phs k = m k := by
  induction phs generalizing m with
  | nil => rfl
  | cons ph phs ih =>
    rw [copySegments_cons, ih fun q hq => h q (List.mem_cons_of_mem ph hq), copySegment_eq,
      place_ne _ _ (h ph List.mem_cons_self)]

/-- Where segments do not meet, each keeps the bytes copied for it. -/
theorem copySegments_get {f : File} {bias k : ℕ} {phs : List Phdr} {ph : Phdr} (m : Memory)
    (hp : ph ∈ phs)
    (hd : phs.Pairwise fun p q => u32 (p.pVaddr+bias)+copied f p ≤ u32 (q.pVaddr+bias) ∨
      u32 (q.pVaddr+bias)+copied f q ≤ u32 (p.pVaddr+bias) ∨ copied f p = 0 ∨ copied f q = 0)
    (hk : k < copied f ph) :
    copySegments f bias m phs (u32 (ph.pVaddr+bias)+k) =
      f.byte (skip f ph.pOffset 0 ph.pOffset+k) := by
  induction phs generalizing m with
  | nil => cases hp
  | cons q phs ih =>
    rw [List.pairwise_cons] at hd
    rw [copySegments_cons]
    rcases List.mem_cons.mp hp with rfl | hp
    · rw [copySegments_ne, copySegment_eq, place_get _ _ hk]
      intro p hp
      rcases hd.1 p hp with h | h | h | h <;> omega
    · exact ih _ hp hd.2

/-- Patches away from the segments may be made after they are copied. -/
theorem copySegments_applyAll {f : File} {bias : ℕ} {phs : List Phdr} {ps : List Patch}
    (m : Memory) (h : ∀ ph ∈ phs, copied f ph ≠ 0 → ∀ p ∈ ps,
      p.addr+4 ≤ u32 (ph.pVaddr+bias) ∨ u32 (ph.pVaddr+bias)+copied f ph ≤ p.addr) :
    copySegments f bias (applyAll m ps) phs = applyAll (copySegments f bias m phs) ps := by
  induction phs generalizing m with
  | nil => rfl
  | cons ph phs ih =>
    have hstep : copySegment f bias (applyAll m ps) ph = applyAll (copySegment f bias m ph) ps := by
      rw [copySegment_eq, copySegment_eq]
      by_cases hc : copied f ph = 0
      · rw [hc, place_zero, place_zero]
      · exact place_applyAll m _ _ (h ph List.mem_cons_self hc)
    rw [copySegments_cons, copySegments_cons, hstep,
      ih _ fun q hq => h q (List.mem_cons_of_mem ph hq)]

/-- One turn of the loop that measures the segments. -/
def measure (total : ℕ) (ph : Phdr) : ℕ :=
  if ph.pType = ptLoad then max total (u32 (ph.pVaddr+ph.pMemsz)) else total

theorem totalSize_eq (phs : List Phdr) : totalSize phs = pageUp (phs.foldl measure 0) := rfl

theorem measured_le {phs : List Phdr} (h : Fits phs) {total : ℕ} (ht : total+4095 < 4294967296) :
    phs.foldl measure total+4095 < 4294967296 := by
  induction phs generalizing total with
  | nil => exact ht
  | cons ph phs ih =>
    rw [List.foldl_cons]
    refine ih (fun q hq => h q (List.mem_cons_of_mem ph hq)) ?_
    unfold measure
    split
    · next hl =>
      have hf := (h ph List.mem_cons_self hl).2
      rw [u32_of_lt (by omega)]
      omega
    · exact ht

theorem le_measured (phs : List Phdr) (total : ℕ) : total ≤ phs.foldl measure total := by
  induction phs generalizing total with
  | nil => exact le_rfl
  | cons ph phs ih =>
    refine le_trans ?_ (ih _)
    unfold measure
    split <;> omega

theorem segment_le_measured {phs : List Phdr} {ph : Phdr} (hp : ph ∈ phs)
    (hl : ph.pType = ptLoad) (total : ℕ) :
    u32 (ph.pVaddr+ph.pMemsz) ≤ phs.foldl measure total := by
  induction phs generalizing total with
  | nil => cases hp
  | cons q phs ih =>
    rcases List.mem_cons.mp hp with rfl | hp
    · refine le_trans ?_ (le_measured phs _)
      unfold measure
      rw [if_pos hl]
      omega
    · exact ih hp _

/-- Every segment ends inside the mapping. -/
theorem segment_le_totalSize {phs : List Phdr} {ph : Phdr} (h : Fits phs) (hp : ph ∈ phs)
    (hl : ph.pType = ptLoad) : ph.pVaddr+ph.pMemsz ≤ totalSize phs := by
  have hm := segment_le_measured hp hl 0
  rw [u32_of_lt (by have := (h ph hp hl).2; omega)] at hm
  exact le_trans hm (le_pageUp (measured_le h (by omega)))

theorem totalSize_le_pageUp {phs : List Phdr} (h : Fits phs) :
    totalSize phs ≤ pageUp (totalSize phs) := by
  have hm := measured_le h (show 0+4095 < 4294967296 by omega)
  apply le_pageUp
  rw [totalSize_eq]
  unfold pageUp pageDown
  rw [u32_of_lt hm]
  omega

/-- A mapping at a page of the user's space. -/
theorem sysMmap_eq {env : Env} {st : State} {addr length : ℕ} (ha : kernelSpaceEnd ≤ addr)
    (hd : 4096 ∣ addr) (h0 : length ≠ 0) :
    sysMmap env st addr length =
      if env.framesFor st.mapped (pageUp length) then
        some { st with mem := place st.mem addr (pageUp length) (fun _ => 0)
                       mapped := (addr, u32 (addr+pageUp length))::st.mapped }
      else none := by
  unfold kernelSpaceEnd at ha
  have hp : pageDown addr = addr := Nat.div_mul_cancel hd
  have hne : addr ≠ 0 := by omega
  have hk : ¬(addr ≠ 0 ∧ addr < 0x02000000) := by omega
  unfold sysMmap kernelSpaceEnd
  simp only [if_neg h0, if_neg hne, if_neg hk, hp]

/-- A mapping fills a range with zeros and records it. -/
theorem sysMmap_some {env : Env} {st st1 : State} {addr length : ℕ}
    (h : sysMmap env st addr length = some st1) :
    ∃ m v, st1 = { st with mem := m, mapped := v::st.mapped } := by
  unfold sysMmap at h
  split at h
  · cases h
  dsimp only at h
  generalize (if addr = 0 then _ else pageDown addr) = vaddr at h
  split at h
  · cases h
  split at h
  · cases h
  split at h
  · cases h
    exact ⟨_, _, rfl⟩
  · cases h

theorem sysMmap_mapped {env : Env} {st st1 : State} {addr length : ℕ}
    (h : sysMmap env st addr length = some st1) : ∀ v ∈ st.mapped, v ∈ st1.mapped := by
  obtain ⟨m, w, rfl⟩ := sysMmap_some h
  exact fun v hv => List.mem_cons_of_mem w hv

theorem registerObject_some {fuel : ℕ} {st st1 : State} {name : CStr} {bias dyn : ℕ}
    {r : Option LoadedObject} (h : registerObject fuel st name bias dyn = some (st1, r)) :
    (r = none ∧ st1 = st) ∨ ∃ obj, r = some obj ∧ st1 = st.push obj ∧ obj.loadBias = bias ∧
      obj.dynamic = dyn ∧ obj.name = name := by
  unfold registerObject at h
  split at h
  · cases h
    exact .inl ⟨rfl, rfl⟩
  split at h
  · next hd =>
    cases h
    exact .inr ⟨_, rfl, rfl, rfl, hd.symm, rfl⟩
  · obtain ⟨es, -, he⟩ := Option.map_eq_some_iff.mp h
    cases he
    exact .inr ⟨_, rfl, rfl, rfl, rfl, rfl⟩

theorem registerObject_mem {fuel : ℕ} {st st1 : State} {name : CStr} {bias dyn : ℕ}
    {r : Option LoadedObject} (h : registerObject fuel st name bias dyn = some (st1, r)) :
    st1.mem = st.mem ∧ st1.mapped = st.mapped ∧ st1.nextLoadAddr = st.nextLoadAddr := by
  rcases registerObject_some h with ⟨-, rfl⟩ | ⟨obj, -, rfl, -⟩ <;> exact ⟨rfl, rfl, rfl⟩

/-- Whether memory can be mapped does not depend on what it holds. -/
theorem sysMmap_none {env : Env} {st : State} {addr length : ℕ} (m : Memory)
    (h : sysMmap env st addr length = none) :
    sysMmap env { st with mem := m } addr length = none := by
  unfold sysMmap at h ⊢
  by_cases h0 : length = 0
  · rw [if_pos h0]
  rw [if_neg h0] at h ⊢
  dsimp only at h ⊢
  generalize (if addr = 0 then _ else pageDown addr) = vaddr at h ⊢
  split at h
  · next hk => rw [if_pos hk]
  next hk =>
  rw [if_neg hk]
  split at h
  · next hz => rw [if_pos hz]
  next hz =>
  rw [if_neg hz]
  split at h
  · cases h
  · next hf => rw [if_neg hf]

/-- The state that a successful mapping registers the object in. -/
def mappedState (env : Env) (f : File) (st st1 : State) : State :=
  { st1 with mem := copySegments f st.nextLoadAddr st1.mem (phdrs (hdrBuf env f))
             nextLoadAddr :=
               u32 (pageUp (st.nextLoadAddr+totalSize (phdrs (hdrBuf env f)))+4096) }

/-- Loading either finds no file to map and leaves everything as it was, or maps
the file and registers it. -/
theorem mapSharedObject_cases {fuel : ℕ} {env : Env} {st st2 : State} {soname : ℕ}
    {r : Option LoadedObject} (h : mapSharedObject fuel env st soname = some (st2, r)) :
    (r = none ∧ st2 = st ∧ ∀ f, env.fopen (libPath st.mem soname) = some f →
      File.loadable env f = true →
      sysMmap env st st.nextLoadAddr (totalSize (phdrs (hdrBuf env f))) = none) ∨
    ∃ f st1, env.fopen (libPath st.mem soname) = some f ∧ File.loadable env f = true ∧
      sysMmap env st st.nextLoadAddr (totalSize (phdrs (hdrBuf env f))) = some st1 ∧
      registerObject fuel (mappedState env f st st1) (.ptr soname) st.nextLoadAddr
        (dynamicAt (phdrs (hdrBuf env f)) st.nextLoadAddr) = some (st2, r) := by
  unfold mapSharedObject at h
  split at h
  · next hf =>
    cases h
    exact .inl ⟨rfl, rfl, fun f hf' => by rw [hf] at hf'; cases hf'⟩
  · next f hf =>
    split at h
    · next hl =>
      dsimp only at h
      split at h
      · next hnone =>
        cases h
        refine .inl ⟨rfl, rfl, fun f' hf' _ => ?_⟩
        rw [hf] at hf'
        cases hf'
        exact hnone
      · next st1 h1 => exact .inr ⟨f, st1, hf, hl, h1, h⟩
    · next hl =>
      cases h
      refine .inl ⟨rfl, rfl, fun f' hf' hl' => ?_⟩
      rw [hf] at hf'
      cases hf'
      exact absurd hl' hl

end Vlsmc.LdSoImage
