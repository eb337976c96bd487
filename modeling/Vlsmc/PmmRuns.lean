import Vlsmc.PhysicalMemory
import Mathlib.Data.Finset.Card

/-!
# Runs of the physical memory manager

The outstanding references of each frame are kept beside the state of the
manager. The bitmap, the counter of used frames and the reference counts are
three encodings of them.
-/

set_option autoImplicit false

namespace Vlsmc.PmmRuns
open Vlsmc.Words Vlsmc.PhysicalMemory

/-- The number of set bits below `n`. -/
def countSet (n : ℕ) (bits : ℕ → Bool) : ℕ := ((Finset.range n).filter fun f => bits f = true).card

theorem countSet_congr {n : ℕ} {bits bits' : ℕ → Bool} (h : ∀ f < n, bits' f = bits f) :
    countSet n bits' = countSet n bits := by
  unfold countSet
  congr 1
  apply Finset.filter_congr
  intro f hf
  rw [h f (Finset.mem_range.mp hf)]

theorem countSet_set {n f : ℕ} {bits bits' : ℕ → Bool} (hf : f < n) (h0 : bits f = false)
    (h1 : bits' f = true) (h : ∀ g, g ≠ f → bits' g = bits g) :
    countSet n bits' = countSet n bits+1 := by
  have hins : (Finset.range n).filter (fun g => bits' g = true) =
      insert f ((Finset.range n).filter fun g => bits g = true) := by
    ext g
    by_cases hg : g = f
    · subst hg
      simp [hf, h1]
    · simp [h g hg, hg]
  unfold countSet
  rw [hins, Finset.card_insert_of_notMem (by simp [h0])]

theorem countSet_clear {n f : ℕ} {bits bits' : ℕ → Bool} (hf : f < n) (h1 : bits f = true)
    (h0 : bits' f = false) (h : ∀ g, g ≠ f → bits' g = bits g) :
    countSet n bits'+1 = countSet n bits :=
  (countSet_set hf h0 h1 fun g hg => (h g hg).symm).symm

theorem countSet_le (n : ℕ) (bits : ℕ → Bool) : countSet n bits ≤ n := by
  have := Finset.card_filter_le (Finset.range n) fun f => bits f = true
  rwa [Finset.card_range] at this

theorem countSet_lt {n f : ℕ} {bits : ℕ → Bool} (hf : f < n) (h : bits f = false) :
    countSet n bits < n := by
  have hset : countSet n (fun g => if g = f then true else bits g) = countSet n bits+1 :=
    countSet_set hf h (if_pos rfl) fun g hg => if_neg hg
  have := countSet_le n fun g => if g = f then true else bits g
  omega

/-- The manager with the outstanding references of each frame. The frames in
`single` were handed out by `alloc_frame`. -/
structure Tracked where
  pmm : Pmm
  refs : ℕ → ℕ
  single : ℕ → Bool

inductive Op where
  | allocFrame
  | allocBlocks (count : ℕ)
  | incRef (frame : ℕ)
  | freeFrame (frame : ℕ)
  | decRef (frame : ℕ)
  deriving DecidableEq, Repr

/-- References are only added to frames from `alloc_frame`, and only
outstanding references are dropped. -/
def Admissible (t : Tracked) : Op → Prop
  | .allocFrame => True
  | .allocBlocks count => count < 4294967296
  | .incRef f => t.single f = true ∧ 1 ≤ t.refs f ∧ t.refs f < 255
  | .freeFrame f => 1 ≤ t.refs f
  | .decRef f => 1 ≤ t.refs f

def setRefs (t : Tracked) (pmm : Pmm) (f n : ℕ) : Tracked :=
  { t with pmm := pmm, refs := fun g => if g = f then n else t.refs g }

/-- Every frame of `start, ..., start+count-1` gets one reference. -/
def handOut (t : Tracked) (pmm : Pmm) (start count : ℕ) (single : Bool) : Tracked where
  pmm := pmm
  refs := fun g => if start ≤ g ∧ g < start+count then 1 else t.refs g
  single := fun g => if start ≤ g ∧ g < start+count then single else t.single g

def step (t : Tracked) : Op → Tracked
  | .allocFrame =>
    if t.pmm.allocFrame.1 = 0 then { t with pmm := t.pmm.allocFrame.2 }
    else handOut t t.pmm.allocFrame.2 t.pmm.allocFrame.1 1 true
  | .allocBlocks count =>
    if (t.pmm.allocBlocks count).1 = 0 then { t with pmm := (t.pmm.allocBlocks count).2 }
    else handOut t (t.pmm.allocBlocks count).2 (t.pmm.allocBlocks count).1 count false
  | .incRef f => setRefs t (t.pmm.incRef f) f (t.refs f+1)
  | .freeFrame f => setRefs t (t.pmm.freeFrame f) f (t.refs f-1)
  | .decRef f => setRefs t (t.pmm.decRef f) f (t.refs f-1)

/-- The frames `first, ..., first+count-1` may be handed out. -/
structure Exact (first count : ℕ) (t : Tracked) : Prop where
  region : 1 ≤ first ∧ first+count ≤ t.pmm.maxFrames
  size : t.pmm.maxFrames < 1048576 ∧ t.pmm.maxFrames%32 = 0
  used : t.pmm.usedFrames = countSet t.pmm.maxFrames t.pmm.memoryBitmap
  inside : ∀ f, first ≤ f → f < first+count → (t.pmm.memoryBitmap f = true ↔ 1 ≤ t.refs f)
  outside : ∀ f < t.pmm.maxFrames, (f < first ∨ first+count ≤ f) → t.pmm.memoryBitmap f = true
  only : ∀ f, 1 ≤ t.refs f → first ≤ f ∧ f < first+count
  counts : ∀ f, t.single f = true → t.pmm.refcounts f = t.refs f
  blocks : ∀ f < t.pmm.maxFrames, t.single f = false → t.pmm.refcounts f = 0 ∧ t.refs f ≤ 1

variable {first count : ℕ} {t : Tracked}

theorem exact_free (h : Exact first count t) {f : ℕ} (hf : f < t.pmm.maxFrames)
    (hbit : t.pmm.memoryBitmap f = false) : first ≤ f ∧ f < first+count ∧ t.refs f = 0 := by
  have h1 : first ≤ f ∧ f < first+count := by
    by_contra hno
    have := h.outside f hf (by omega)
    simp [hbit] at this
  refine ⟨h1.1, h1.2, ?_⟩
  have := (h.inside f h1.1 h1.2).not.mp (by simp [hbit])
  omega

theorem exact_used (h : Exact first count t) {f : ℕ} (hf : 1 ≤ t.refs f) :
    f < t.pmm.maxFrames ∧ t.pmm.memoryBitmap f = true := by
  obtain ⟨h1, h2⟩ := h.only f hf
  have := h.region.2
  exact ⟨by omega, (h.inside f h1 h2).mpr hf⟩

/-- A run of free frames has been counted up to frame `i`. -/
theorem scanFree_spec (p : Pmm) (n : ℕ) : ∀ c i current start st,
    (∀ k < current, start+k < i ∧ p.memoryBitmap (start+k) = false) →
    (1 ≤ current → start+current = i) →
    p.scanFree n (List.range' i c) current start = some st →
    st+n ≤ i+c ∧ ∀ k < n, p.memoryBitmap (st+k) = false := by
  intro c
  induction c with
  | zero =>
    intro i current start st _ _ h
    simp [Pmm.scanFree] at h
  | succ c ih =>
    intro i current start st hfree hpos h
    rw [List.range'_succ, Pmm.scanFree] at h
    cases hbit : p.memoryBitmap i with
    | true =>
      rw [hbit, if_pos rfl] at h
      obtain ⟨h1, h2⟩ := ih (i+1) 0 start st (by simp) (by simp) h
      exact ⟨by omega, h2⟩
    | false =>
      rw [hbit, if_neg (by simp)] at h
      dsimp only at h
      have hstart : (if current = 0 then i else start)+current = i := by
        split_ifs with h0
        · omega
        · exact hpos (by omega)
      have hfree' : ∀ k < current+1, p.memoryBitmap ((if current = 0 then i else start)+k) =
          false := by
        intro k hk
        by_cases hkc : k = current
        · rw [hkc, hstart, hbit]
        · rw [if_neg (by omega)]
          exact (hfree k (by omega)).2
      generalize (if current = 0 then i else start) = start' at *
      split_ifs at h with hdone
      · obtain rfl := Option.some.inj h
        exact ⟨by omega, fun k hk => hfree' k (by omega)⟩
      · obtain ⟨h1, h2⟩ := ih (i+1) (current+1) start' st
          (fun k hk => ⟨by omega, hfree' k hk⟩) (fun _ => by omega) h
        exact ⟨by omega, h2⟩

theorem getFreeBlocks_some {p : Pmm} {n st : ℕ} (h : p.getFreeBlocks n = some st) :
    1 ≤ n ∧ st+n ≤ p.maxFrames ∧ ∀ k < n, p.memoryBitmap (st+k) = false := by
  unfold Pmm.getFreeBlocks at h
  split_ifs at h with h0 h1
  · obtain ⟨hlt, hbit⟩ := getFirstFreeFrame_some h
    refine ⟨by omega, by omega, fun k hk => ?_⟩
    obtain rfl : k = 0 := by omega
    exact hbit
  · rw [List.range_eq_range'] at h
    obtain ⟨h2, h3⟩ := scanFree_spec p n _ 0 0 _ st (by simp) (by simp) h
    exact ⟨by omega, by omega, h3⟩

theorem allocBlocks_eq (p : Pmm) (n : ℕ) : p.allocBlocks n = (0, p) ∨
    ∃ st, 1 ≤ n ∧ st+n ≤ p.maxFrames ∧ (∀ k < n, p.memoryBitmap (st+k) = false) ∧
      p.allocBlocks n = (st, (List.range n).foldl (fun p i => p.markUsed (st+i)) p) := by
  by_cases hfree : p.getFreeMemory < u32 (n*4096)
  · left
    rw [Pmm.allocBlocks, if_pos hfree]
  · cases h : p.getFreeBlocks n with
    | none =>
      left
      rw [Pmm.allocBlocks, if_neg hfree, h]
    | some st =>
      obtain ⟨h1, h2, h3⟩ := getFreeBlocks_some h
      refine Or.inr ⟨st, h1, h2, h3, ?_⟩
      rw [Pmm.allocBlocks, if_neg hfree, h]

/-- A range that is set from its start on, and the cell behind it. -/
theorem range_extend (st n f : ℕ) (new old : Bool) :
    (if f = st+n then new else if st ≤ f ∧ f < st+n then new else old) =
      if st ≤ f ∧ f < st+(n+1) then new else old := by
  by_cases hf : f = st+n
  · rw [if_pos hf, if_pos (by omega)]
  · rw [if_neg hf]
    by_cases hin : st ≤ f ∧ f < st+n
    · rw [if_pos hin, if_pos (by omega)]
    · rw [if_neg hin, if_neg (by omega)]

/-- The frames of a block are marked one after the other. -/
theorem markUsed_fold (p : Pmm) (st : ℕ) (hmax : p.maxFrames < 1048576)
    (hused : p.usedFrames = countSet p.maxFrames p.memoryBitmap) :
    ∀ n, st+n ≤ p.maxFrames → (∀ k < n, p.memoryBitmap (st+k) = false) →
    ∀ p', (List.range n).foldl (fun p i => p.markUsed (st+i)) p = p' →
      p'.maxFrames = p.maxFrames ∧ p'.refcounts = p.refcounts ∧
      (∀ f, p'.memoryBitmap f = if st ≤ f ∧ f < st+n then true else p.memoryBitmap f) ∧
      p'.usedFrames = countSet p.maxFrames p'.memoryBitmap := by
  intro n
  induction n with
  | zero =>
    rintro - - p' rfl
    exact ⟨rfl, rfl, fun f => by rw [if_neg (by omega)]; rfl, hused⟩
  | succ n ih =>
    intro hn hfree p'' hp''
    obtain ⟨h1, h2, h3, h4⟩ := ih (by omega) (fun k hk => hfree k (by omega)) _ rfl
    rw [List.range_succ, List.foldl_append, List.foldl_cons, List.foldl_nil] at hp''
    generalize (List.range n).foldl (fun p i => p.markUsed (st+i)) p = p' at *
    have hbit : p'.memoryBitmap (st+n) = false := by
      rw [h3, if_neg (by omega)]
      exact hfree n (by omega)
    have hset : ∀ f, p''.memoryBitmap f = if f = st+n then true else p'.memoryBitmap f := by
      rw [← hp'']
      exact fun f => rfl
    have hlt := countSet_lt (show st+n < p.maxFrames by omega) hbit
    refine ⟨by rw [← hp'']; exact h1, by rw [← hp'']; exact h2, fun f => ?_, ?_⟩
    · rw [hset, h3]
      exact range_extend st n f true (p.memoryBitmap f)
    · rw [countSet_set (show st+n < p.maxFrames by omega) hbit (by rw [hset, if_pos rfl])
        (fun g hg => by rw [hset, if_neg hg])]
      have hu : p''.usedFrames = u32 (p'.usedFrames+1) := by
        rw [← hp'']
        rfl
      rw [hu, h4, u32_of_lt (by omega)]

/-- Frames without a reference have count zero. -/
theorem exact_zero (h : Exact first count t) {f : ℕ} (hf : f < t.pmm.maxFrames)
    (h0 : t.refs f = 0) : t.pmm.refcounts f = 0 := by
  cases hs : t.single f with
  | true => rw [h.counts f hs, h0]
  | false => exact (h.blocks f hf hs).1

theorem handOut_exact (h : Exact first count t) {p' : Pmm} {st n : ℕ} {single : Bool}
    (hmax : p'.maxFrames = t.pmm.maxFrames) (hle : st+n ≤ t.pmm.maxFrames)
    (hfree : ∀ k < n, t.pmm.memoryBitmap (st+k) = false)
    (hbits : ∀ f, p'.memoryBitmap f = if st ≤ f ∧ f < st+n then true else t.pmm.memoryBitmap f)
    (hrc : ∀ f, p'.refcounts f = if st ≤ f ∧ f < st+n then (if single then 1 else 0)
      else t.pmm.refcounts f)
    (hused : p'.usedFrames = countSet t.pmm.maxFrames p'.memoryBitmap) :
    Exact first count (handOut t p' st n single) := by
  have hin : ∀ f, st ≤ f → f < st+n → first ≤ f ∧ f < first+count := by
    intro f h1 h2
    have hbit := hfree (f-st) (by omega)
    rw [show st+(f-st) = f by omega] at hbit
    obtain ⟨h3, h4, -⟩ := exact_free h (by omega) hbit
    exact ⟨h3, h4⟩
  refine ⟨?_, ?_, ?_, ?_, ?_, ?_, ?_, ?_⟩ <;> simp only [handOut]
  · rw [hmax]
    exact h.region
  · rw [hmax]
    exact h.size
  · rw [hmax]
    exact hused
  · intro f h1 h2
    rw [hbits]
    split_ifs
    · simp
    · exact h.inside f h1 h2
  · intro f hf hout
    rw [hbits]
    split_ifs
    · rfl
    · exact h.outside f (by rw [← hmax]; exact hf) hout
  · intro f hf
    split_ifs at hf with hr
    · exact hin f hr.1 hr.2
    · exact h.only f hf
  · intro f hf
    rw [hrc]
    split_ifs at hf ⊢ with hr
    · rfl
    · exact h.counts f hf
  · intro f hf hs
    rw [hrc]
    by_cases hr : st ≤ f ∧ f < st+n
    · rw [if_pos hr] at hs
      simp [hr, hs]
    · rw [if_neg hr] at hs
      rw [if_neg hr, if_neg hr]
      exact h.blocks f (by rw [← hmax]; exact hf) hs

theorem allocFrame_exact (h : Exact first count t) : Exact first count (step t .allocFrame) := by
  rw [step]
  rcases allocFrame_eq t.pmm with heq | ⟨f, hlt, hbit, heq⟩
  · rw [heq, if_pos rfl]
    exact h
  · have hreg := exact_free h hlt hbit
    have hfirst := h.region.1
    have hsize := h.size.1
    have hcount := countSet_lt hlt hbit
    rw [heq, if_neg (by simp only; omega)]
    obtain ⟨h1, h2, h3, h4⟩ := occupy_spec t.pmm f (u32 (t.pmm.usedFrames+1))
    have hrange : ∀ g, (f ≤ g ∧ g < f+1) ↔ g = f := by omega
    apply handOut_exact h h1 (by omega)
    · intro k hk
      obtain rfl : k = 0 := by omega
      exact hbit
    · intro g
      by_cases hg : g = f
      · rw [if_pos ((hrange g).mpr hg), hg, h2]
      · rw [if_neg ((hrange g).not.mpr hg), (h4 g hg).1]
    · intro g
      by_cases hg : g = f
      · rw [if_pos ((hrange g).mpr hg), hg, h3]
        rfl
      · rw [if_neg ((hrange g).not.mpr hg), (h4 g hg).2]
    · have hu : (t.pmm.occupy f (u32 (t.pmm.usedFrames+1))).usedFrames =
          u32 (t.pmm.usedFrames+1) := rfl
      rw [hu, countSet_set hlt hbit h2 fun g hg => (h4 g hg).1, h.used, u32_of_lt (by omega)]

theorem allocBlocks_exact (h : Exact first count t) (n : ℕ) :
    Exact first count (step t (.allocBlocks n)) := by
  rw [step]
  rcases allocBlocks_eq t.pmm n with heq | ⟨st, h1, hle, hfree, heq⟩
  · rw [heq, if_pos rfl]
    exact h
  · have hbit := hfree 0 (by omega)
    have hreg := exact_free h (by omega) hbit
    have hfirst := h.region.1
    rw [heq, if_neg (by simp only; omega)]
    obtain ⟨h2, h3, h4, h5⟩ := markUsed_fold t.pmm st h.size.1 h.used n hle hfree _ rfl
    apply handOut_exact h h2 hle hfree h4
    · intro g
      rw [h3]
      split_ifs with hg hs
      · exact absurd hs (by simp)
      · have hb := hfree (g-st) (by omega)
        rw [show st+(g-st) = g by omega] at hb
        exact exact_zero h (by omega) (exact_free h (by omega) hb).2.2
      · rfl
    · exact h5

theorem incRef_exact (h : Exact first count t) {f : ℕ} (hs : t.single f = true)
    (h1 : 1 ≤ t.refs f) (h2 : t.refs f < 255) : Exact first count (step t (.incRef f)) := by
  obtain ⟨hlt, -⟩ := exact_used h h1
  have hin := h.only f h1
  have hrc := incRef_refcounts t.pmm hlt (by rw [h.counts f hs]; exact h2)
  have hu : (t.pmm.incRef f).usedFrames = t.pmm.usedFrames := by
    unfold Pmm.incRef
    split_ifs <;> rfl
  refine ⟨?_, ?_, ?_, ?_, ?_, ?_, ?_, ?_⟩ <;>
    simp only [step, setRefs, incRef_maxFrames, incRef_memoryBitmap, hu]
  · exact h.region
  · exact h.size
  · exact h.used
  · intro g h3 h4
    by_cases hg : g = f
    · rw [if_pos hg, hg]
      have := (h.inside f hin.1 hin.2).mpr h1
      simp [this]
    · rw [if_neg hg]
      exact h.inside g h3 h4
  · exact h.outside
  · intro g hg
    by_cases hgf : g = f
    · rw [hgf]
      exact hin
    · rw [if_neg hgf] at hg
      exact h.only g hg
  · intro g hg
    by_cases hgf : g = f
    · rw [if_pos hgf, hgf, hrc, h.counts f hs]
    · rw [if_neg hgf, (incRef_same t.pmm hgf).2]
      exact h.counts g hg
  · intro g hg hsg
    have hgf : g ≠ f := by
      rintro rfl
      rw [hs] at hsg
      exact absurd hsg (by simp)
    rw [if_neg hgf, (incRef_same t.pmm hgf).2]
    exact h.blocks g hg hsg

theorem freeFrame_usedFrames_shared (p : Pmm) {f : ℕ} (hrc : 1 < p.refcounts f) :
    (p.freeFrame f).usedFrames = p.usedFrames := by
  unfold Pmm.freeFrame
  split_ifs <;> rfl

theorem freeFrame_usedFrames_last (p : Pmm) {f : ℕ} (h : f < p.maxFrames)
    (hrc : p.refcounts f ≤ 1) : (p.freeFrame f).usedFrames = sub32 p.usedFrames 1 := by
  unfold Pmm.freeFrame
  generalize sub32 p.usedFrames 1 = n
  rw [if_neg (by omega), if_neg (by omega)]

/-- The bit of a frame is cleared with its last reference. -/
theorem freeFrame_bit (h : Exact first count t) {f : ℕ} (h1 : 1 ≤ t.refs f) :
    ((t.pmm.freeFrame f).memoryBitmap f = true ↔ 1 ≤ t.refs f-1) ∧
    (t.refs f = 1 → t.pmm.refcounts f ≤ 1) ∧ (t.refs f ≠ 1 → 1 < t.pmm.refcounts f) ∧
    (t.single f = true → (t.pmm.freeFrame f).refcounts f = t.refs f-1) ∧
    (t.single f = false → (t.pmm.freeFrame f).refcounts f = 0) := by
  obtain ⟨hlt, hbit⟩ := exact_used h h1
  by_cases hone : t.refs f = 1
  · have hrc : t.pmm.refcounts f ≤ 1 := by
      cases hs : t.single f with
      | true => rw [h.counts f hs, hone]
      | false => rw [(h.blocks f hlt hs).1]; omega
    obtain ⟨h2, h3⟩ := freeFrame_last t.pmm hlt hrc
    refine ⟨by rw [h2, hone]; simp, fun _ => hrc, fun hne => absurd hone hne, fun _ => ?_,
      fun _ => h3⟩
    rw [h3, hone]
  · have hs : t.single f = true := by
      cases hs : t.single f with
      | true => rfl
      | false =>
        have := (h.blocks f hlt hs).2
        omega
    have hrc : 1 < t.pmm.refcounts f := by
      rw [h.counts f hs]
      omega
    obtain ⟨h2, h3⟩ := freeFrame_shared t.pmm hlt hrc
    refine ⟨by rw [h2, hbit]; simp; omega, fun hh => absurd hh hone, fun _ => hrc, fun _ => ?_,
      fun hh => ?_⟩
    · rw [h3, h.counts f hs]
    · rw [hs] at hh
      exact absurd hh (by simp)

theorem freeFrame_exact (h : Exact first count t) {f : ℕ} (h1 : 1 ≤ t.refs f) :
    Exact first count (step t (.freeFrame f)) := by
  obtain ⟨hlt, hbit⟩ := exact_used h h1
  have hin := h.only f h1
  have hsize := h.size.1
  obtain ⟨hb, hlast, hshared, hsingle, hblock⟩ := freeFrame_bit h h1
  refine ⟨?_, ?_, ?_, ?_, ?_, ?_, ?_, ?_⟩ <;> simp only [step, setRefs, freeFrame_maxFrames]
  · exact h.region
  · exact h.size
  · by_cases hone : t.refs f = 1
    · obtain ⟨h2, -⟩ := freeFrame_last t.pmm hlt (hlast hone)
      have hc := countSet_clear hlt hbit h2 fun g hg => (freeFrame_same t.pmm hg).1
      have hle := countSet_le t.pmm.maxFrames t.pmm.memoryBitmap
      rw [freeFrame_usedFrames_last t.pmm hlt (hlast hone), h.used,
        sub32_of_le (by omega) (by omega)]
      omega
    · obtain ⟨h2, -⟩ := freeFrame_shared t.pmm hlt (hshared hone)
      rw [freeFrame_usedFrames_shared t.pmm (hshared hone), h.used]
      apply countSet_congr
      intro g _
      by_cases hg : g = f
      · rw [hg, h2]
      · exact (freeFrame_same t.pmm hg).1.symm
  · intro g h3 h4
    by_cases hg : g = f
    · rw [if_pos hg, hg]
      exact hb
    · rw [if_neg hg, (freeFrame_same t.pmm hg).1]
      exact h.inside g h3 h4
  · intro g hg hout
    rw [(freeFrame_same t.pmm (by omega)).1]
    exact h.outside g hg hout
  · intro g hg
    by_cases hgf : g = f
    · rw [hgf]
      exact hin
    · rw [if_neg hgf] at hg
      exact h.only g hg
  · intro g hg
    by_cases hgf : g = f
    · rw [if_pos hgf, hgf]
      exact hsingle (hgf ▸ hg)
    · rw [if_neg hgf, (freeFrame_same t.pmm hgf).2]
      exact h.counts g hg
  · intro g hg hsg
    by_cases hgf : g = f
    · subst hgf
      rw [if_pos rfl]
      have := (h.blocks g hg hsg).2
      exact ⟨hblock hsg, by omega⟩
    · rw [if_neg hgf, (freeFrame_same t.pmm hgf).2]
      exact h.blocks g hg hsg

theorem step_exact (h : Exact first count t) (op : Op) (hop : Admissible t op) :
    Exact first count (step t op) := by
  cases op with
  | allocFrame => exact allocFrame_exact h
  | allocBlocks n => exact allocBlocks_exact h n
  | incRef f => exact incRef_exact h hop.1 hop.2.1 hop.2.2
  | freeFrame f => exact freeFrame_exact h hop
  | decRef f =>
    have := freeFrame_exact h hop
    rwa [step, ← decRef_eq] at this

/-- `init` and one `set_region_free`, before any frame was handed out. -/
def start (p₀ : Pmm) (memorySize base size : ℕ) : Tracked where
  pmm := (p₀.init memorySize).setRegionFree base size
  refs := fun _ => 0
  single := fun _ => false

theorem clear_fold (p : Pmm) (st : ℕ) (hmax : p.maxFrames < 1048576)
    (hused : p.usedFrames = countSet p.maxFrames p.memoryBitmap) :
    ∀ n, st+n ≤ p.maxFrames → (∀ f < p.maxFrames, p.memoryBitmap f = true) →
    ∀ p', (List.range n).foldl (fun p i =>
        { p.clearFrame (st+i) with usedFrames := sub32 p.usedFrames 1 }) p = p' →
      p'.maxFrames = p.maxFrames ∧ p'.refcounts = p.refcounts ∧
      (∀ f, p'.memoryBitmap f = if st ≤ f ∧ f < st+n then false else p.memoryBitmap f) ∧
      p'.usedFrames = countSet p.maxFrames p'.memoryBitmap := by
  intro n
  induction n with
  | zero =>
    rintro - - p' rfl
    exact ⟨rfl, rfl, fun f => by rw [if_neg (by omega)]; rfl, hused⟩
  | succ n ih =>
    intro hn hset p'' hp''
    obtain ⟨h1, h2, h3, h4⟩ := ih (by omega) hset _ rfl
    rw [List.range_succ, List.foldl_append, List.foldl_cons, List.foldl_nil] at hp''
    generalize (List.range n).foldl (fun p i =>
      { p.clearFrame (st+i) with usedFrames := sub32 p.usedFrames 1 }) p = p' at *
    have hbit : p'.memoryBitmap (st+n) = true := by
      rw [h3, if_neg (by omega)]
      exact hset (st+n) (by omega)
    have hclr : ∀ f, p''.memoryBitmap f = if f = st+n then false else p'.memoryBitmap f := by
      rw [← hp'']
      exact fun f => rfl
    refine ⟨by rw [← hp'']; exact h1, by rw [← hp'']; exact h2, fun f => ?_, ?_⟩
    · rw [hclr, h3]
      exact range_extend st n f false (p.memoryBitmap f)
    · have hclr0 : p''.memoryBitmap (st+n) = false := by rw [hclr, if_pos rfl]
      have hother : ∀ g, g ≠ st+n → p''.memoryBitmap g = p'.memoryBitmap g := fun g hg => by
        rw [hclr, if_neg hg]
      have hc := countSet_clear (show st+n < p.maxFrames by omega) hbit hclr0 hother
      have hle := countSet_le p.maxFrames p'.memoryBitmap
      have hu : p''.usedFrames = sub32 p'.usedFrames 1 := by
        rw [← hp'']
      rw [hu, h4, sub32_of_le (by omega) (by omega)]
      omega

theorem start_exact (p₀ : Pmm) {memorySize base size : ℕ} (hmem : memorySize < 4294967296)
    (h128 : memorySize%131072 = 0) (hbase : 4096 ≤ base) (hin : base+size ≤ memorySize) :
    Exact (base/4096) (size/4096) (start p₀ memorySize base size) := by
  have hall : ∀ f < memorySize/4096, (p₀.init memorySize).memoryBitmap f = true := fun f hf =>
    if_pos (by omega)
  have hcount : (p₀.init memorySize).usedFrames =
      countSet (p₀.init memorySize).maxFrames (p₀.init memorySize).memoryBitmap := by
    have : countSet (memorySize/4096) (p₀.init memorySize).memoryBitmap = memorySize/4096 := by
      rw [countSet, Finset.filter_true_of_mem fun f hf => hall f (Finset.mem_range.mp hf),
        Finset.card_range]
    exact this.symm
  have hmax : (p₀.init memorySize).maxFrames = memorySize/4096 := rfl
  obtain ⟨h1, h2, h3, h4⟩ := clear_fold (p₀.init memorySize) (base/4096)
    (by rw [hmax]; omega) hcount (size/4096) (by rw [hmax]; omega) (by rw [hmax]; exact hall) _ rfl
  have hp : (start p₀ memorySize base size).pmm = (List.range (size/4096)).foldl (fun p i =>
      { p.clearFrame (base/4096+i) with usedFrames := sub32 p.usedFrames 1 })
      (p₀.init memorySize) := by rw [start, Pmm.setRegionFree]
  have hr : ∀ f, (start p₀ memorySize base size).refs f = 0 := fun _ => rfl
  have hs : ∀ f, (start p₀ memorySize base size).single f = false := fun _ => rfl
  generalize start p₀ memorySize base size = t at *
  rw [← hp] at h1 h2 h3 h4
  rw [hmax] at h1 h4
  refine ⟨by rw [h1]; omega, by rw [h1]; omega, by rw [h4, h1], ?_, ?_, ?_, ?_, ?_⟩
  · intro f h5 h6
    rw [h3, if_pos ⟨h5, h6⟩, hr]
    simp
  · intro f hf hout
    rw [h3, if_neg (by omega)]
    exact hall f (by rwa [← h1])
  · intro f hf
    rw [hr] at hf
    omega
  · intro f hf
    rw [hs] at hf
    exact absurd hf (by simp)
  · intro f hf _
    rw [h2, hr]
    rw [h1] at hf
    exact ⟨if_pos hf, by omega⟩

def run (t : Tracked) (ops : List Op) : Tracked := ops.foldl step t

def AdmissibleRun (t : Tracked) : List Op → Prop
  | [] => True
  | op::ops => Admissible t op ∧ AdmissibleRun (step t op) ops

theorem run_exact (h : Exact first count t) (ops : List Op) (hops : AdmissibleRun t ops) :
    Exact first count (run t ops) := by
  induction ops generalizing t with
  | nil => exact h
  | cons op ops ih => exact ih (step_exact h op hops.1) hops.2

theorem handOut_refs {p' : Pmm} {st n f : ℕ} {single : Bool} (h : 1 ≤ t.refs f) :
    1 ≤ (handOut t p' st n single).refs f := by
  simp only [handOut]
  split_ifs
  · exact le_rfl
  · exact h

/-- Operations that drop a reference of frame `f`. -/
def Drops (op : Op) (f : ℕ) : Prop := op = .freeFrame f ∨ op = .decRef f

/-- A frame becomes free with its last reference and in no other way. -/
theorem freed_iff (h : Exact first count t) (op : Op) (hop : Admissible t op) {f : ℕ}
    (hf : f < t.pmm.maxFrames) :
    (t.pmm.memoryBitmap f = true ∧ (step t op).pmm.memoryBitmap f = false) ↔
      Drops op f ∧ t.refs f = 1 := by
  have h' := step_exact h op hop
  have hmax : (step t op).pmm.maxFrames = t.pmm.maxFrames := by
    cases op with
    | allocFrame =>
      rw [step]
      rcases allocFrame_eq t.pmm with heq | ⟨g, -, -, heq⟩ <;> rw [heq] <;> split_ifs <;> rfl
    | allocBlocks n =>
      rw [step]
      rcases allocBlocks_eq t.pmm n with heq | ⟨st, h1, hle, hfree, heq⟩
      · rw [heq]
        split_ifs <;> rfl
      · rw [heq]
        have := (markUsed_fold t.pmm st h.size.1 h.used n hle hfree _ rfl).1
        split_ifs <;> exact this
    | incRef g => exact incRef_maxFrames _ _
    | freeFrame g => exact freeFrame_maxFrames _ _
    | decRef g =>
      rw [step, decRef_eq]
      exact freeFrame_maxFrames _ _
  -- references only go down to zero by being dropped
  have hrefs : (1 ≤ t.refs f ∧ (step t op).refs f = 0) ↔ Drops op f ∧ t.refs f = 1 := by
    cases op with
    | allocFrame =>
      have hpos : 1 ≤ t.refs f → 1 ≤ (step t .allocFrame).refs f := by
        intro h1
        rw [step]
        split_ifs
        · exact h1
        · exact handOut_refs h1
      simp only [Drops, reduceCtorEq, or_self, false_and, iff_false, not_and]
      intro h1
      have := hpos h1
      omega
    | allocBlocks n =>
      have hpos : 1 ≤ t.refs f → 1 ≤ (step t (.allocBlocks n)).refs f := by
        intro h1
        rw [step]
        split_ifs
        · exact h1
        · exact handOut_refs h1
      simp only [Drops, reduceCtorEq, or_self, false_and, iff_false, not_and]
      intro h1
      have := hpos h1
      omega
    | incRef g =>
      have hpos : 1 ≤ t.refs f → 1 ≤ (step t (.incRef g)).refs f := by
        intro h1
        simp only [step, setRefs]
        split_ifs <;> omega
      simp only [Drops, reduceCtorEq, or_self, false_and, iff_false, not_and]
      intro h1
      have := hpos h1
      omega
    | freeFrame g =>
      have hg : 1 ≤ t.refs g := hop
      simp only [step, setRefs, Drops, Op.freeFrame.injEq, reduceCtorEq, or_false]
      by_cases hgf : f = g
      · subst hgf
        simp only [if_true, true_and]
        omega
      · rw [if_neg hgf]
        constructor
        · rintro ⟨h1, h2⟩
          omega
        · rintro ⟨rfl, -⟩
          exact absurd rfl hgf
    | decRef g =>
      have hg : 1 ≤ t.refs g := hop
      simp only [step, setRefs, Drops, Op.decRef.injEq, reduceCtorEq, false_or]
      by_cases hgf : f = g
      · subst hgf
        simp only [if_true, true_and]
        omega
      · rw [if_neg hgf]
        constructor
        · rintro ⟨h1, h2⟩
          omega
        · rintro ⟨rfl, -⟩
          exact absurd rfl hgf
  rw [← hrefs]
  by_cases hin : first ≤ f ∧ f < first+count
  · have h1 := h.inside f hin.1 hin.2
    have h2 := (h'.inside f hin.1 hin.2).not
    rw [Bool.not_eq_true] at h2
    rw [h1, h2]
    constructor
    · rintro ⟨h3, h4⟩
      exact ⟨h3, by omega⟩
    · rintro ⟨h3, h4⟩
      exact ⟨h3, by omega⟩
  · have h1 := h'.outside f (by rw [hmax]; exact hf) (by omega)
    constructor
    · rintro ⟨-, h2⟩
      rw [h1] at h2
      exact absurd h2 (by simp)
    · rintro ⟨h2, -⟩
      exact absurd (h.only f h2) hin

/-- In every state that a run reaches, the next frame or block that is handed
out has no outstanding reference, frames become free exactly with their last
reference, and the counter of used frames counts the set bits. -/
theorem frames_handed_out_once (p₀ : Pmm) (memorySize base size : ℕ)
    (hmem : memorySize < 4294967296) (h128 : memorySize%131072 = 0) (hbase : 4096 ≤ base)
    (hin : base+size ≤ memorySize) (ops : List Op)
    (hops : AdmissibleRun (start p₀ memorySize base size) ops) (t : Tracked)
    (ht : t = run (start p₀ memorySize base size) ops) :
    (t.pmm.allocFrame.1 ≠ 0 → t.refs t.pmm.allocFrame.1 = 0 ∧
      t.pmm.memoryBitmap t.pmm.allocFrame.1 = false) ∧
    (∀ n, (t.pmm.allocBlocks n).1 ≠ 0 → ∀ k < n, t.refs ((t.pmm.allocBlocks n).1+k) = 0 ∧
      t.pmm.memoryBitmap ((t.pmm.allocBlocks n).1+k) = false ∧
      (t.pmm.allocBlocks n).1+k < t.pmm.maxFrames) ∧
    (∀ op, Admissible t op → ∀ f < t.pmm.maxFrames,
      (t.pmm.memoryBitmap f = true ∧ (step t op).pmm.memoryBitmap f = false) ↔
        Drops op f ∧ t.refs f = 1) ∧
    t.pmm.usedFrames = countSet t.pmm.maxFrames t.pmm.memoryBitmap := by
  subst ht
  have h := run_exact (start_exact p₀ hmem h128 hbase hin) ops hops
  generalize run (start p₀ memorySize base size) ops = t at *
  refine ⟨fun h0 => ?_, fun n h0 k hk => ?_, fun op hop f hf => freed_iff h op hop hf, h.used⟩
  · rcases allocFrame_eq t.pmm with heq | ⟨f, hlt, hbit, heq⟩
    · rw [heq] at h0
      exact absurd rfl h0
    · rw [heq]
      exact ⟨(exact_free h hlt hbit).2.2, hbit⟩
  · rcases allocBlocks_eq t.pmm n with heq | ⟨st, -, hle, hfree, heq⟩
    · rw [heq] at h0
      exact absurd rfl h0
    · rw [heq]
      exact ⟨(exact_free h (by omega) (hfree k hk)).2.2, hfree k hk, by simp only; omega⟩

def zeroed : Pmm := ⟨fun _ => false, 0, 0, fun _ => 0⟩

/-- Two free frames: one is shared and given back twice, then both form a block. -/
theorem frames_handed_out_once_two :
    (run (start zeroed 131072 4096 8192)
      [.allocFrame, .incRef 1, .freeFrame 1, .decRef 1, .allocBlocks 2]).pmm.usedFrames =
      countSet 32 (run (start zeroed 131072 4096 8192)
        [.allocFrame, .incRef 1, .freeFrame 1, .decRef 1, .allocBlocks 2]).pmm.memoryBitmap ∧
    (run (start zeroed 131072 4096 8192) [.allocFrame, .incRef 1, .freeFrame 1, .decRef 1,
      .allocBlocks 2]).refs 2 = 1 := by
  have hops : AdmissibleRun (start zeroed 131072 4096 8192)
      [.allocFrame, .incRef 1, .freeFrame 1, .decRef 1, .allocBlocks 2] := by
    refine ⟨trivial, ⟨?_, ?_, ?_⟩, ?_, ?_, ?_, trivial⟩
    · decide +kernel
    · decide +kernel
    · decide +kernel
    · change 1 ≤ _
      decide +kernel
    · change 1 ≤ _
      decide +kernel
    · change _ < _
      decide
  have h := (frames_handed_out_once zeroed 131072 4096 8192 (by decide) (by decide) (by decide)
    (by decide) _ hops _ rfl).2.2.2
  exact ⟨h, by decide +kernel⟩

end Vlsmc.PmmRuns
