import Mathlib.Data.List.Pairwise
import Vlsmc.DemandPaging
import Vlsmc.LdSoImage

/-!
# The image of an executable

Both loaders build the image that the program headers describe: the kernel's page
by page from VMAs, in any order of faults, and the dynamic linker's by copying
into a fresh mapping.
-/

set_option autoImplicit false

namespace Vlsmc.ElfImage
open Vlsmc.ByteMemory Vlsmc.Words Vlsmc.Elf Vlsmc.DemandPaging Vlsmc.LdSo Vlsmc.LdSoImage

/-- An ELF file with its program headers in the first 512 bytes. -/
structure HeadersInside (f : File) : Prop where
  magic : validMagic f.byte = true
  header : 52 ≤ f.size
  table : ePhoff f.byte+32*ePhnum f.byte ≤ min 512 f.size

theorem headerBuf_get {f : File} {size k : ℕ} (old : Memory) (hk : k < size) (hf : k < f.size) :
    headerBuf f size old k = f.byte k := by
  have h := place_get old f.byte (a := 0) (n := f.available 0 size) (i := k)
    (by unfold File.available; omega)
  rwa [Nat.zero_add] at h

theorem read16_congr {m m' : Memory} {a : ℕ} (h0 : m' a = m a) (h1 : m' (a+1) = m (a+1)) :
    read16 m' a = read16 m a := by
  unfold read16
  rw [h0, h1]

theorem read32_headerBuf {f : File} {size a : ℕ} (old : Memory) (ha : a+4 ≤ min size f.size) :
    read32 (headerBuf f size old) a = read32 f.byte a := by
  apply read32_congr
  intro k _ _
  exact headerBuf_get old (by omega) (by omega)

theorem read16_headerBuf {f : File} {size a : ℕ} (old : Memory) (ha : a+2 ≤ min size f.size) :
    read16 (headerBuf f size old) a = read16 f.byte a :=
  read16_congr (headerBuf_get old (by omega) (by omega)) (headerBuf_get old (by omega) (by omega))

/-- A buffer that holds the program headers shows those of the file. -/
theorem phdrs_of_inside {f : File} {size : ℕ} (old : Memory) (hh : 52 ≤ min size f.size)
    (ht : ePhoff f.byte+32*ePhnum f.byte ≤ min size f.size) :
    phdrs (headerBuf f size old) = phdrs f.byte := by
  have hoff : ePhoff (headerBuf f size old) = ePhoff f.byte := read32_headerBuf old (by omega)
  have hnum : ePhnum (headerBuf f size old) = ePhnum f.byte := read16_headerBuf old (by omega)
  unfold phdrs
  rw [hoff, hnum]
  apply List.map_congr_left
  intro i hi
  have hin := List.mem_range.mp hi
  unfold phdrAt
  rw [read32_headerBuf old (by omega), read32_headerBuf old (by omega),
    read32_headerBuf old (by omega), read32_headerBuf old (by omega),
    read32_headerBuf old (by omega), read32_headerBuf old (by omega)]

/-- Either loader reads the program headers of the file. -/
theorem phdrs_headerBuf {f : File} {size : ℕ} (old : Memory) (h : HeadersInside f)
    (hs : 512 ≤ size) : phdrs (headerBuf f size old) = phdrs f.byte := by
  obtain ⟨-, hh, ht⟩ := h
  exact phdrs_of_inside old (by omega) (by omega)

theorem loadable_of_headersInside {f : File} (env : Env) (h : HeadersInside f) :
    File.loadable env f = true := by
  obtain ⟨hm, hh, -⟩ := h
  have hbyte : ∀ k < 4, hdrBuf env f k = f.byte k := fun k hk =>
    headerBuf_get env.stack (by omega) (by omega)
  have hav : 52 ≤ f.available 0 512 := by
    unfold File.available
    omega
  unfold File.loadable
  rw [decide_eq_true hav, Bool.true_and]
  unfold validMagic at hm ⊢
  rwa [hbyte 0 (by omega), hbyte 1 (by omega), hbyte 2 (by omega), hbyte 3 (by omega)]

/-- The segments stay below the end of the address space when loaded at `bias`. -/
def NoWrap (bias : ℕ) (phs : List Phdr) : Prop :=
  ∀ ph ∈ loads phs, ph.pVaddr+ph.pMemsz+bias+4095 < 4294967296

instance (bias : ℕ) (phs : List Phdr) : Decidable (NoWrap bias phs) :=
  inferInstanceAs (Decidable (∀ ph ∈ loads phs, _))

section Segments

variable {f : File} {phs : List Phdr} {bias : ℕ}

instance : Std.Symm PagesApart := ⟨fun _ _ h => h.symm⟩

/-- Page ranges apart leave the segments themselves apart. -/
theorem segments_apart {p q : Phdr} (h : PagesApart p q)
    (hp : p.pVaddr+p.pMemsz+4095 < 4294967296) (hq : q.pVaddr+q.pMemsz+4095 < 4294967296) :
    p.pVaddr+p.pMemsz ≤ pageDown q.pVaddr ∨ q.pVaddr+q.pMemsz ≤ pageDown p.pVaddr := by
  rcases h with h | h
  · exact .inl (le_trans (le_pageUp hp) h)
  · exact .inr (le_trans (le_pageUp hq) h)

theorem pageDown_le (a : ℕ) : pageDown a ≤ a := by
  unfold pageDown
  omega

end Segments

/-! ## The dynamic linker's copy -/

section Copy

variable {f : File} {phs : List Phdr} {bias : ℕ}

theorem copied_apart (h : Loadable f phs) (hw : NoWrap bias phs) :
    phs.Pairwise fun p q => u32 (p.pVaddr+bias)+copied f p ≤ u32 (q.pVaddr+bias) ∨
      u32 (q.pVaddr+bias)+copied f q ≤ u32 (p.pVaddr+bias) ∨ copied f p = 0 ∨ copied f q = 0 := by
  have ha := List.pairwise_filter.mp h.apart
  refine List.Pairwise.imp_of_mem ?_ ha
  intro p q hp hq hpq
  by_cases hp0 : copied f p = 0
  · exact .inr (.inr (.inl hp0))
  by_cases hq0 : copied f q = 0
  · exact .inr (.inr (.inr hq0))
  have hin : ∀ x ∈ phs, copied f x ≠ 0 → x ∈ loads phs := by
    intro x hx h0
    have hl : x.pType = ptLoad := by
      by_contra hne
      exact h0 (if_neg hne)
    have := copied_le f x
    have := (h.fits x hx hl).1
    exact mem_loads.mpr ⟨hx, hl, by omega⟩
  have hpl := hin p hp hp0
  have hql := hin q hq hq0
  have hwp := hw p hpl
  have hwq := hw q hql
  rw [u32_of_lt (by omega), u32_of_lt (by omega)]
  have hcp := copied_le f p
  have hcq := copied_le f q
  have hfp := (h.fits p hp (mem_loads.mp hpl).2.1).1
  have hfq := (h.fits q hq (mem_loads.mp hql).2.1).1
  have hdp := pageDown_le p.pVaddr
  have hdq := pageDown_le q.pVaddr
  have := segments_apart (hpq (by simpa [loads] using (List.mem_filter.mp hpl).2)
    (by simpa [loads] using (List.mem_filter.mp hql).2)) (by omega) (by omega)
  omega

/-- The bytes of a segment behind its file part are in no segment's file part. -/
theorem tail_uncopied {ph : Phdr} {k : ℕ} (h : Loadable f phs) (hw : NoWrap bias phs)
    (hp : ph ∈ loads phs) (hk : ph.pFilesz ≤ k) (hkm : k < ph.pMemsz) :
    ∀ q ∈ phs, ph.pVaddr+bias+k < u32 (q.pVaddr+bias) ∨
      u32 (q.pVaddr+bias)+copied f q ≤ ph.pVaddr+bias+k := by
  intro q hq
  by_cases hq0 : copied f q = 0
  · omega
  have hl : q.pType = ptLoad := by
    by_contra hne
    exact hq0 (if_neg hne)
  have hcq := copied_le f q
  have hfq := (h.fits q hq hl).1
  have hql : q ∈ loads phs := mem_loads.mpr ⟨hq, hl, by omega⟩
  have hwp := hw ph hp
  have hwq := hw q hql
  rw [u32_of_lt (by omega)]
  by_cases he : ph = q
  · subst he
    omega
  have hdp := pageDown_le ph.pVaddr
  have hdq := pageDown_le q.pVaddr
  have := segments_apart (h.apart.forall hp hql he) (by omega) (by omega)
  omega

/-- A mapping where it was asked for. -/
theorem sysMmap_at {env : Env} {st st1 : State} {addr length limit : ℕ}
    (h : sysMmap env st addr length = some st1) (ha : st1.mapped = (addr, limit)::st.mapped) :
    st1.mem = place st.mem addr (pageUp length) fun _ => 0 := by
  unfold sysMmap at h
  split at h
  · cases h
  dsimp only at h
  generalize (if addr = 0 then _ else pageDown addr) = vaddr at h
  split at h
  · cases h
  split at h
  · cases h
  split at h
  · cases h
    rw [List.cons.injEq, Prod.mk.injEq] at ha
    rw [ha.1.1]
  · cases h

/-- Mapping and copying leave a segment as its header describes it. -/
theorem copied_image {ph : Phdr} {k total : ℕ} (m : Memory) (h : Loadable f phs)
    (hw : NoWrap bias phs) (ht : totalSize phs ≤ total) (hp : ph ∈ loads phs)
    (hk : k < ph.pMemsz) :
    copySegments f bias (place m bias total fun _ => 0) phs (ph.pVaddr+bias+k) =
      ph.imageByte f k := by
  obtain ⟨hmem, hl, -⟩ := mem_loads.mp hp
  have hwp := hw ph hp
  have hc := copied_inside hl (h.inside ph hp)
  unfold Phdr.imageByte
  split
  · next hkf =>
    have hg := copySegments_get (place m bias total fun _ => 0) hmem (copied_apart h hw)
      (hc ▸ hkf)
    rw [u32_of_lt (by omega), skip_eq f le_rfl (by have := h.inside ph hp; omega)] at hg
    rw [hg, Nat.zero_add]
  · next hkf =>
    rw [copySegments_ne (tail_uncopied h hw hp (by omega) hk)]
    have hin := segment_le_totalSize h.fits hmem hl
    rw [show ph.pVaddr+bias+k = bias+(ph.pVaddr+k) by omega, place_get _ _ (by omega)]

end Copy

/-! ## The kernel's pages -/

section Pages

variable {f : File} {phs : List Phdr} {bias : ℕ} {ph : Phdr} {p p' : Process}

/-- The loop over program headers puts one VMA for each segment in front. -/
theorem addSegments_vmas {kmalloc : List Vma → Bool} {s s' : List Vma × ℕ}
    (h : phs.foldlM (addSegment f bias kmalloc) s = some s') :
    s'.1 = ((loads phs).map (vmaOf f bias)).reverse++s.1 := by
  induction phs generalizing s with
  | nil =>
    cases h
    rfl
  | cons ph phs ih =>
    rw [List.foldlM_cons] at h
    obtain ⟨s1, h1, h2⟩ := Option.bind_eq_some_iff.mp h
    rw [ih h2]
    unfold addSegment at h1
    split at h1
    · next hl =>
      cases h1
      have : loads (ph::phs) = loads phs := by simp [loads, hl]
      rw [this]
    split at h1
    · next hz =>
      cases h1
      have : loads (ph::phs) = loads phs := by simp [loads, hz]
      rw [this]
    split at h1
    · next hl hz _ =>
      cases h1
      have : loads (ph::phs) = ph::loads phs := by
        simp only [ne_eq, not_not] at hl
        simp [loads, hl, hz]
      simp [this]
    · cases h1

def Vma.covers (v : Vma) (a : ℕ) : Bool := decide (v.start ≤ a) && decide (a < v.finish)

theorem pageDown_add (a : ℕ) (hb : 4096 ∣ bias) : pageDown (a+bias) = pageDown a+bias := by
  unfold pageDown
  omega

theorem pageUp_add {a : ℕ} (hb : 4096 ∣ bias) (ha : a+bias+4095 < 4294967296) :
    pageUp (a+bias) = pageUp a+bias := by
  unfold pageUp
  rw [u32_of_lt ha, u32_of_lt (by omega), ← pageDown_add _ hb]
  congr 1
  omega

theorem covers_vmaOf (hb : 4096 ∣ bias) (hw : ph.pVaddr+ph.pMemsz+bias+4095 < 4294967296) (a : ℕ) :
    Vma.covers (vmaOf f bias ph) a = true ↔
      pageDown ph.pVaddr+bias ≤ a ∧ a < pageUp (ph.pVaddr+ph.pMemsz)+bias := by
  have hbiased : u32 (ph.pVaddr+bias) = ph.pVaddr+bias := u32_of_lt (by omega)
  have hstart : (vmaOf f bias ph).start = pageDown ph.pVaddr+bias := by
    show pageDown (u32 (ph.pVaddr+bias)) = _
    rw [hbiased, pageDown_add _ hb]
  have hfinish : (vmaOf f bias ph).finish = pageUp (ph.pVaddr+ph.pMemsz)+bias := by
    show pageUp (u32 (ph.pVaddr+bias)+ph.pMemsz) = _
    rw [hbiased, ← pageUp_add hb hw]
    congr 1
    omega
  unfold Vma.covers
  rw [hstart, hfinish, Bool.and_eq_true, decide_eq_true_iff, decide_eq_true_iff]

/-- The VMA a fault in a segment's pages finds is the one made for that segment. -/
theorem find_vma {old : List Vma} {a : ℕ} (h : Loadable f phs) (hb : 4096 ∣ bias)
    (hw : NoWrap bias phs) (hp : ph ∈ loads phs) (ha : Vma.covers (vmaOf f bias ph) a = true) :
    (((loads phs).map (vmaOf f bias)).reverse++old).find? (fun v => Vma.covers v a) =
      some (vmaOf f bias ph) := by
  have hmem : vmaOf f bias ph ∈ ((loads phs).map (vmaOf f bias)).reverse :=
    List.mem_reverse.mpr (List.mem_map_of_mem hp)
  rw [List.find?_append]
  have hsome : (((loads phs).map (vmaOf f bias)).reverse.find? fun v => Vma.covers v a).isSome :=
    List.find?_isSome.mpr ⟨_, hmem, ha⟩
  obtain ⟨v, hv⟩ := Option.isSome_iff_exists.mp hsome
  rw [hv]
  obtain ⟨q, hq, rfl⟩ := List.mem_map.mp (List.mem_reverse.mp (List.mem_of_find?_eq_some hv))
  have hqa := List.find?_some hv
  by_cases he : ph = q
  · rw [he]
    rfl
  -- Two segments cannot share a page.
  have hap := h.apart.forall hp hq he
  rw [covers_vmaOf hb (hw ph hp)] at ha
  rw [covers_vmaOf hb (hw q hq)] at hqa
  unfold PagesApart at hap
  omega

/-- A page of a VMA over a file: the file's bytes up to the end of its data. -/
theorem fill_get {v : Vma} {page i : ℕ} (hsrc : p.source v = some f) (hs : v.start ≤ page)
    (hin : v.fileOffset+v.fileSize ≤ f.size) (hend : v.start+v.fileSize < 4294967296)
    (hpage : page+4096 < 4294967296) (hi : i < 4096) :
    p.fill v page i =
      if page+i < v.start+v.fileSize then f.byte (v.fileOffset+(page-v.start)+i) else 0 := by
  have hsz := f.size_lt
  unfold Process.fill
  dsimp only
  rw [u32_of_lt hend, u32_of_lt hpage, hsrc]
  by_cases hd : page < v.start+v.fileSize
  · rw [if_pos hd, u32_of_lt (by omega)]
    unfold readFile place File.available
    dsimp only
    by_cases hb : page+i < v.start+v.fileSize
    · rw [if_pos hb, if_pos (by split <;> omega), Nat.sub_zero]
    · rw [if_neg hb, if_neg (by rw [if_pos (by omega)]; omega)]
  · rw [if_neg hd, if_neg (by omega)]

theorem source_vmaOf (p : Process) : p.source (vmaOf f bias ph) = some f := rfl

/-- A page of a segment is filled with the image's bytes. -/
theorem fill_vmaOf (p : Process) (h : Loadable f phs) (hb : 4096 ∣ bias) (hw : NoWrap bias phs)
    (hp : ph ∈ loads phs) {k : ℕ} (hk : k < ph.pMemsz) :
    p.fill (vmaOf f bias ph) (pageDown (ph.pVaddr+bias+k)) ((ph.pVaddr+bias+k)%4096) =
      ph.imageByte f k := by
  have hwp := hw ph hp
  have hin := h.inside ph hp
  have hc := h.congruent ph hp
  have hf := (h.fits ph (mem_loads.mp hp).1 (mem_loads.mp hp).2.1).1
  have hsz := f.size_lt
  have hbiased : u32 (ph.pVaddr+bias) = ph.pVaddr+bias := u32_of_lt (by omega)
  -- The distance of the segment's start from its first page.
  obtain ⟨d, hd⟩ : ∃ d, d = (ph.pVaddr+bias)%4096 := ⟨_, rfl⟩
  have hdown : pageDown (ph.pVaddr+bias) = ph.pVaddr+bias-d := by
    unfold pageDown
    omega
  have hdist : ph.pVaddr+bias-(ph.pVaddr+bias-d) = d := Nat.sub_sub_self (hd ▸ Nat.mod_le _ _)
  have hoffset : d ≤ ph.pOffset := by
    clear hwp hin hf hsz hbiased hdown hdist hk
    omega
  have hstart : (vmaOf f bias ph).start = ph.pVaddr+bias-d := by
    show pageDown (u32 (ph.pVaddr+bias)) = _
    rw [hbiased, hdown]
  have hoff : (vmaOf f bias ph).fileOffset = ph.pOffset-d := by
    show sub32 ph.pOffset (u32 (ph.pVaddr+bias)-pageDown (u32 (ph.pVaddr+bias))) = _
    rw [hbiased, hdown, hdist, sub32_of_le hoffset (by omega)]
  have hsize : (vmaOf f bias ph).fileSize = ph.pFilesz+d := by
    show u32 (ph.pFilesz+(u32 (ph.pVaddr+bias)-pageDown (u32 (ph.pVaddr+bias)))) = _
    rw [hbiased, hdown, hdist, u32_of_lt (by omega)]
  have hpage : pageDown (ph.pVaddr+bias+k)+(ph.pVaddr+bias+k)%4096 = ph.pVaddr+bias+k := by
    unfold pageDown
    omega
  have hlow : ph.pVaddr+bias-d ≤ pageDown (ph.pVaddr+bias+k) := by
    unfold pageDown
    omega
  rw [fill_get (source_vmaOf p) (by omega) (by omega) (by omega) (by omega)
    (Nat.mod_lt _ (by decide)), hpage, hstart, hoff, hsize]
  unfold Phdr.imageByte
  by_cases hkf : k < ph.pFilesz
  · rw [if_pos hkf, if_pos (by omega)]
    congr 1
    omega
  · rw [if_neg hkf, if_neg (by omega)]

/-- The frame an allocation returns is mapped nowhere. -/
def Fresh (p : Process) (a : Access) : Prop := ∀ q e, p.table q = some e → e.1 ≠ a.newFrame

/-- Accesses that miss the page cache and get free frames. -/
def ValidRun : Process → List Access → Prop
  | _, [] => True
  | p, a::as => a.cached = none ∧ Fresh p a ∧ ∀ p', access p a = some p' → ValidRun p' as

/-- After loading: the VMAs of the segments in front, an empty heap, and the pages
of the segments absent or filled. -/
structure Built (f : File) (bias : ℕ) (phs : List Phdr) (p : Process) : Prop where
  vmas : ∃ old, p.vmaList = ((loads phs).map (vmaOf f bias)).reverse++old
  heap : p.heapEnd ≤ p.heapStart
  bytes : ∀ ph ∈ loads phs, ∀ k < ph.pMemsz, p.table ((ph.pVaddr+bias+k)/4096) = none ∨
    readByte p (ph.pVaddr+bias+k) = some (ph.imageByte f k)

theorem handlePageFault_some {a : Access} (hh : p.heapEnd ≤ p.heapStart) (hc : a.cached = none)
    (h : handlePageFault p a.addr a.cached a.newFrame = some p') :
    ∃ v, p.vmaList.find? (fun v => Vma.covers v a.addr) = some v ∧
      p' = (p.setFrame a.newFrame (p.fill v (pageDown a.addr))).mapPage (pageDown a.addr)
        a.newFrame v.flags := by
  unfold handlePageFault at h
  rw [if_neg (by omega), hc] at h
  split at h
  · cases h
  · next v hv =>
    rw [ite_self] at h
    exact ⟨v, hv, (Option.some.inj h).symm⟩

/-- Reading through a page table and frames one page of which was just filled. -/
theorem readByte_filled (p : Process) (page frame flags addr : ℕ) (bytes : Memory) :
    readByte ((p.setFrame frame bytes).mapPage page frame flags) addr =
      if addr/4096 = page/4096 then some (bytes (addr%4096))
      else (p.table (addr/4096)).map fun e =>
        (if e.1 = frame then bytes else p.frames e.1) (addr%4096) := by
  unfold readByte Process.mapPage Process.setFrame
  dsimp only
  split
  · rw [Option.map_some, if_pos rfl]
  · rfl

theorem access_built (h : Loadable f phs) (hb : 4096 ∣ bias) (hw : NoWrap bias phs) {a : Access}
    (hp : Built f bias phs p) (hc : a.cached = none) (hf : Fresh p a)
    (ha : access p a = some p') : Built f bias phs p' := by
  unfold access at ha
  split at ha
  · cases ha
    exact hp
  obtain ⟨v, hv, rfl⟩ := handlePageFault_some hp.heap hc ha
  refine ⟨hp.vmas, hp.heap, ?_⟩
  intro ph hph k hk
  rw [readByte_filled]
  by_cases hpage : (ph.pVaddr+bias+k)/4096 = pageDown a.addr/4096
  · have hsame : pageDown a.addr = pageDown (ph.pVaddr+bias+k) := by
      unfold pageDown at hpage ⊢
      omega
    have hcov : Vma.covers (vmaOf f bias ph) a.addr = true := by
      have hwp := hw ph hph
      rw [covers_vmaOf hb hwp]
      unfold pageUp pageDown at hsame ⊢
      rw [u32_of_lt (by omega)]
      omega
    obtain ⟨old, hold⟩ := hp.vmas
    rw [hold, find_vma h hb hw hph hcov] at hv
    cases hv
    rw [if_pos hpage, hsame, fill_vmaOf p h hb hw hph hk]
    exact .inr rfl
  · rw [if_neg hpage]
    have htab : ((p.setFrame a.newFrame (p.fill v (pageDown a.addr))).mapPage (pageDown a.addr)
        a.newFrame v.flags).table ((ph.pVaddr+bias+k)/4096) =
        p.table ((ph.pVaddr+bias+k)/4096) := if_neg hpage
    rw [htab]
    rcases hp.bytes ph hph k hk with hn | hr
    · exact .inl hn
    · unfold readByte at hr
      obtain ⟨e, he, hr⟩ := Option.map_eq_some_iff.mp hr
      rw [he, Option.map_some, if_neg (hf _ e he), hr]
      exact .inr rfl

theorem accesses_built (h : Loadable f phs) (hb : 4096 ∣ bias) (hw : NoWrap bias phs)
    {as : List Access} (hp : Built f bias phs p) (hv : ValidRun p as)
    (ha : accesses p as = some p') : Built f bias phs p' := by
  induction as generalizing p with
  | nil =>
    cases ha
    exact hp
  | cons a as ih =>
    obtain ⟨p1, h1, h2⟩ := Option.bind_eq_some_iff.mp ha
    exact ih (access_built h hb hw hp hv.1 hv.2.1 h1) (hv.2.2 p1 h1) h2

/-- An access to a segment is served, and finds its byte. -/
theorem access_reads (h : Loadable f phs) (hb : 4096 ∣ bias) (hw : NoWrap bias phs) {a : Access}
    (hp : Built f bias phs p) (hc : a.cached = none) (hph : ph ∈ loads phs)
    {k : ℕ} (hk : k < ph.pMemsz) (ha : a.addr = ph.pVaddr+bias+k) :
    ∃ p', access p a = some p' ∧ readByte p' a.addr = some (ph.imageByte f k) := by
  by_cases hpres : (p.table (a.addr/4096)).isSome
  · refine ⟨p, if_pos hpres, ?_⟩
    rw [ha] at hpres ⊢
    rcases hp.bytes ph hph k hk with hn | hr
    · rw [hn] at hpres
      cases hpres
    · exact hr
  · obtain ⟨old, hold⟩ := hp.vmas
    have hwp := hw ph hph
    have hcov : Vma.covers (vmaOf f bias ph) a.addr = true := by
      rw [covers_vmaOf hb hwp]
      unfold pageUp pageDown
      rw [u32_of_lt (by omega)]
      omega
    have hfind : p.vmaList.find? (fun v => decide (v.start ≤ a.addr) && decide (a.addr < v.finish)) =
        some (vmaOf f bias ph) := hold ▸ find_vma h hb hw hph hcov
    have hheap := hp.heap
    refine ⟨(p.setFrame a.newFrame (p.fill (vmaOf f bias ph) (pageDown a.addr))).mapPage
      (pageDown a.addr) a.newFrame (vmaOf f bias ph).flags, ?_, ?_⟩
    · unfold access handlePageFault
      rw [if_neg hpres, if_neg (by omega), hfind, hc]
      dsimp only
      rw [ite_self]
    · rw [readByte_filled, if_pos (by unfold pageDown; omega), ha, fill_vmaOf p h hb hw hph hk]

/-- Just loaded, with the pages of the segments absent. -/
theorem loaded_built {buf : Memory} {kmalloc : List Vma → Bool} {out : LoadedElf}
    (maxVaddr : ℕ) (hl : loadElfSegments f buf bias kmalloc p = some (p', out))
    (ha : ∀ ph ∈ loads (phdrs buf), ∀ k < ph.pMemsz, p.table ((ph.pVaddr+bias+k)/4096) = none) :
    Built f bias (phdrs buf) (p'.setHeap maxVaddr) := by
  obtain ⟨s, hs, he⟩ := Option.map_eq_some_iff.mp hl
  cases he
  exact ⟨⟨p.vmaList, addSegments_vmas hs⟩, le_rfl, fun ph hp k hk => .inl (ha ph hp k hk)⟩

end Pages

/-- A file whose segment begins 84 bytes into a page and ends in the next one, 16
bytes of it in the file. -/
def oneSegment : File where
  size := 100
  byte := fun i => ([0x7f, 0x45, 0x4c, 0x46, 1, 1, 1, 0, 0, 0, 0, 0, 0, 0, 0, 0,
    3, 0, 3, 0, 1, 0, 0, 0, 0, 0, 0, 0, 52, 0, 0, 0, 0, 0, 0, 0, 0, 0, 0, 0, 52, 0, 32, 0, 1, 0,
    0, 0, 0, 0, 0, 0,
    1, 0, 0, 0, 84, 0, 0, 0, 84, 16, 0, 0, 84, 16, 0, 0, 16, 0, 0, 0, 136, 19, 0, 0, 6, 0, 0, 0,
    0, 16, 0, 0,
    42, 43, 44, 45, 46, 47, 48, 49, 50, 51, 52, 53, 54, 55, 56, 57] : List UInt8).getD i 0
  size_lt := by decide

/-- Nothing mapped, and no frame written. -/
def emptyProcess : Process := ⟨0, 0, [], fun _ => none, fun _ _ => 0, none⟩

end Vlsmc.ElfImage
