import Vlsmc.PmmRuns
import Vlsmc.StepConditions
import Mathlib.Order.Bounds.Basic

/-!
# What the frame allocator can find

The search for one frame reads whole words of the bitmap, and `init` fills whole words
only; the search for a block reads bits. A frame of the last, incomplete word is not
found by the first, and the second may find frames there that were never given to it.
-/

set_option autoImplicit false

namespace Vlsmc.FrameCompleteness
open Vlsmc.Words Vlsmc.PhysicalMemory Vlsmc.StepConditions
open Vlsmc.PmmRuns (allocBlocks_eq zeroed)

inductive Op
  | setRegionFree (base size : ℕ)
  | allocFrame
  | allocBlocks (count : ℕ)
  | freeFrame (frame : ℕ)
  | incRef (frame : ℕ)
  | decRef (frame : ℕ)

/-- The manager, and the frames that were given to it and not handed out since. -/
structure Machine where
  pmm : Pmm
  free : ℕ → Bool

namespace Machine

def start (p₀ : Pmm) (memorySize : ℕ) : Machine := ⟨p₀.init memorySize, fun _ => false⟩

/-- A reference is given back; with the last one, or none, the frame is free. -/
def giveBack (m : Machine) (pmm : Pmm) (frame : ℕ) : Machine :=
  ⟨pmm, fun f => m.free f || (f == frame && decide (frame < m.pmm.maxFrames) &&
    decide (m.pmm.refcounts frame ≤ 1))⟩

/-- The frames `first, ..., first+count-1` are handed out, unless `first` is null. -/
def handOut (m : Machine) (pmm : Pmm) (first count : ℕ) : Machine :=
  ⟨pmm, fun f => m.free f && (first == 0 || !(decide (first ≤ f) && decide (f < first+count)))⟩

def step (m : Machine) : Op → Machine
  | .setRegionFree base size =>
    ⟨m.pmm.setRegionFree base size, fun f => m.free f || (decide (base/4096 ≤ f) &&
      decide (f < base/4096+size/4096) && decide (f < m.pmm.maxFrames))⟩
  | .allocFrame => m.handOut m.pmm.allocFrame.2 m.pmm.allocFrame.1 1
  | .allocBlocks count => m.handOut (m.pmm.allocBlocks count).2 (m.pmm.allocBlocks count).1 count
  | .freeFrame frame => m.giveBack (m.pmm.freeFrame frame) frame
  | .decRef frame => m.giveBack (m.pmm.decRef frame) frame
  | .incRef frame => ⟨m.pmm.incRef frame, m.free⟩

/-- Where `n` consecutive frames are free. -/
def freeRuns (m : Machine) (n : ℕ) : Set ℕ := {s | ∀ k < n, m.free (s+k) = true}

/-- Where `n` consecutive bits below `max_frames_` are clear. -/
def clearRuns (m : Machine) (n : ℕ) : Set ℕ :=
  {s | s+n ≤ m.pmm.maxFrames ∧ ∀ k < n, m.pmm.memoryBitmap (s+k) = false}

/-- The lowest of the places, and null if there is none. -/
def Answers (S : Set ℕ) (r : ℕ) : Prop := (S.Nonempty → r ≠ 0 ∧ IsLeast S r) ∧ (S = ∅ → r = 0)

/-- Every request is answered with the lowest free frame or run. -/
structure Complete (m : Machine) : Prop where
  frame : Answers {f | m.free f = true} m.pmm.allocFrame.1
  blocks : ∀ n, 1 ≤ n → Answers (m.freeRuns n) (m.pmm.allocBlocks n).1

/-- Frame zero is not free; a free frame comes with one in a complete word and with free
memory counted; there is room for every free run; and where a block is looked for, the
lowest clear run is free. -/
structure Covered (m : Machine) : Prop where
  zero : m.free 0 = false
  words : ∀ f, m.free f = true → m.pmm.getFreeMemory ≠ 0 ∧
    ∃ g < m.pmm.maxFrames/32*32, m.free g = true
  room : ∀ n s, 2 ≤ n → s ∈ m.freeRuns n → u32 (n*4096) ≤ m.pmm.getFreeMemory
  clear : ∀ n s, 2 ≤ n → u32 (n*4096) ≤ m.pmm.getFreeMemory → s ≠ 0 →
    IsLeast (m.clearRuns n) s → s ∈ m.freeRuns n

/-- The bitmap is right in the complete words, and free frames have clear bits. -/
structure Mapped (m : Machine) : Prop where
  words : ∀ f < m.pmm.maxFrames/32*32, m.pmm.memoryBitmap f = !m.free f
  clear : ∀ f, m.free f = true → f < m.pmm.maxFrames ∧ m.pmm.memoryBitmap f = false

end Machine

section Searches

variable {p : Pmm}

theorem getFirstFreeFrame_cases (p : Pmm) :
    (p.getFirstFreeFrame = none ∧ ∀ f < p.maxFrames/32*32, p.memoryBitmap f = true) ∨
    ∃ f, p.getFirstFreeFrame = some f ∧
      IsLeast {f | f < p.maxFrames/32*32 ∧ p.memoryBitmap f = false} f := by
  cases hfind : p.getFirstFreeFrame with
  | none =>
    apply Or.inl
    constructor
    · rfl
    · intro f hf
      have hbit := List.find?_range_eq_none.mp hfind f hf
      simpa using hbit
  | some f =>
    apply Or.inr
    obtain ⟨hbit, hmem, hbefore⟩ := List.find?_range_eq_some.mp hfind
    refine ⟨f, rfl, ⟨List.mem_range.mp hmem, by simpa using hbit⟩, ?_⟩
    intro g hg
    by_contra hlt
    have hset := hbefore g (by omega)
    rw [hg.2] at hset
    cases hset

/-- The scan from frame `i` on, when no run ends up to `i` and the last `current` bits before `i`
are clear, and no more of them. -/
theorem scanFree_least (p : Pmm) {n : ℕ} (m i current start : ℕ) (hcur : current < n)
    (hle : current ≤ i) (hstart : current ≠ 0 → start+current = i)
    (hclear : ∀ j < i, i ≤ j+current → p.memoryBitmap j = false)
    (hmore : ∀ j, j+current+1 = i → p.memoryBitmap j = true)
    (hbefore : ∀ s, s+n ≤ i → ∃ k < n, p.memoryBitmap (s+k) = true) :
    (p.scanFree n (List.range' i m) current start = none ∧
      ∀ s, s+n ≤ i+m → ∃ k < n, p.memoryBitmap (s+k) = true) ∨
    ∃ r, p.scanFree n (List.range' i m) current start = some r ∧
      IsLeast {s | s+n ≤ i+m ∧ ∀ k < n, p.memoryBitmap (s+k) = false} r := by
  induction m generalizing i current start with
  | zero => exact .inl ⟨rfl, hbefore⟩
  | succ m ih =>
    have hend : i+(m+1) = i+1+m := by omega
    rw [List.range'_succ, Pmm.scanFree, hend]
    cases hbit : p.memoryBitmap i with
    | true =>
      rw [if_pos rfl]
      apply ih (i+1) 0 start (by omega) (by omega) (by omega)
      · intro j hj hij
        omega
      · intro j hj
        have hji : j = i := by omega
        rw [hji, hbit]
      · intro s hs
        by_cases hlast : s+n ≤ i
        · exact hbefore s hlast
        · refine ⟨i-s, by omega, ?_⟩
          rw [Nat.add_sub_cancel' (by omega), hbit]
    | false =>
      rw [if_neg (by simp)]
      dsimp only
      have hstart' : (if current = 0 then i else start)+current = i := by
        split_ifs with h0
        · omega
        · exact hstart h0
      have hclear' : ∀ j < i+1, i ≤ j+current → p.memoryBitmap j = false := by
        intro j hj hij
        by_cases hji : j = i
        · rw [hji, hbit]
        · exact hclear j (by omega) hij
      generalize (if current = 0 then i else start) = start' at hstart' ⊢
      by_cases hdone : current+1 = n
      · rw [if_pos hdone]
        refine .inr ⟨start', rfl, ⟨by omega, fun k hk => hclear' _ (by omega) (by omega)⟩, ?_⟩
        intro s hs
        by_contra hlt
        obtain ⟨k, hk, hset⟩ := hbefore s (by omega)
        rw [hs.2 k hk] at hset
        cases hset
      · rw [if_neg hdone]
        apply ih (i+1) (current+1) start' (by omega) (by omega) (fun _ => by omega)
        · exact fun j hj hij => hclear' j hj (by omega)
        · exact fun j hj => hmore j (by omega)
        · intro s hs
          by_cases hlast : s+n ≤ i
          · exact hbefore s hlast
          -- A run that ends with this bit begins before the clear stretch.
          · refine ⟨i-current-1-s, by omega, hmore _ (by omega)⟩

/-- The block search finds the lowest run of clear bits. -/
theorem getFreeBlocks_cases (p : Pmm) {n : ℕ} (hn : 2 ≤ n) :
    (p.getFreeBlocks n = none ∧
      ∀ s, s+n ≤ p.maxFrames → ∃ k < n, p.memoryBitmap (s+k) = true) ∨
    ∃ r, p.getFreeBlocks n = some r ∧
      IsLeast {s | s+n ≤ p.maxFrames ∧ ∀ k < n, p.memoryBitmap (s+k) = false} r := by
  have hscan := scanFree_least p (n := n) p.maxFrames 0 0 4294967295 (by omega) (le_refl 0)
    (fun h => absurd rfl h) (fun j hj => absurd hj (Nat.not_lt_zero j)) (fun j hj => by omega)
    (fun s hs => by omega)
  unfold Pmm.getFreeBlocks
  rw [if_neg (by omega), if_neg (by omega), List.range_eq_range']
  rw [Nat.zero_add] at hscan
  exact hscan

theorem getFreeMemory_dvd (p : Pmm) : 4096 ∣ p.getFreeMemory := by
  unfold Pmm.getFreeMemory u32
  omega

theorem allocFrame_first (p : Pmm) (h : p.getFreeMemory ≠ 0) :
    p.allocFrame.1 = p.getFirstFreeFrame.getD 0 := by
  unfold Pmm.allocFrame
  rw [if_neg h]
  cases p.getFirstFreeFrame with
  | none => rfl
  | some f => rfl

theorem allocBlocks_first (p : Pmm) {n : ℕ} (h : u32 (n*4096) ≤ p.getFreeMemory) :
    (p.allocBlocks n).1 = (p.getFreeBlocks n).getD 0 := by
  unfold Pmm.allocBlocks
  rw [if_neg (by omega)]
  cases p.getFreeBlocks n with
  | none => rfl
  | some s => rfl

theorem allocBlocks_refused (p : Pmm) {n : ℕ} (h : ¬u32 (n*4096) ≤ p.getFreeMemory) :
    (p.allocBlocks n).1 = 0 := by
  unfold Pmm.allocBlocks
  rw [if_pos (by omega)]

/-- One frame is asked for in either way with the same answer. -/
theorem allocBlocks_one (p : Pmm) : (p.allocBlocks 1).1 = p.allocFrame.1 := by
  have hdvd := getFreeMemory_dvd p
  have hone : u32 (1*4096) = 4096 := rfl
  by_cases h : p.getFreeMemory = 0
  · rw [allocBlocks_refused p (by omega)]
    unfold Pmm.allocFrame
    rw [if_pos h]
  · rw [allocBlocks_first p (by omega), allocFrame_first p h]
    rfl

end Searches

section Answering

variable {m : Machine} (hm : m.Mapped)
include hm

theorem freeRun_clear {n s : ℕ} (hn : 1 ≤ n) (h : s ∈ m.freeRuns n) : s ∈ m.clearRuns n := by
  constructor
  · have hlast := (hm.clear _ (h (n-1) (by omega))).1
    omega
  · exact fun k hk => (hm.clear _ (h k hk)).2

/-- What `alloc_frame` finds in the complete words. -/
theorem first_free : (m.pmm.getFirstFreeFrame = none ∧
      ∀ f < m.pmm.maxFrames/32*32, m.free f = false) ∨
    ∃ f, m.pmm.getFirstFreeFrame = some f ∧ f < m.pmm.maxFrames/32*32 ∧
      IsLeast {f | m.free f = true} f := by
  rcases getFirstFreeFrame_cases m.pmm with ⟨hnone, hset⟩ | ⟨f, hsome, ⟨hlt, hbit⟩, hleast⟩
  · apply Or.inl
    constructor
    · exact hnone
    · intro f hf
      have hbit := hm.words f hf
      rw [hset f hf] at hbit
      simpa using hbit.symm
  · apply Or.inr
    refine ⟨f, hsome, hlt, ?_, ?_⟩
    · have hfree := hm.words f hlt
      rw [hbit] at hfree
      simpa using hfree.symm
    · intro g hg
      by_cases hgw : g < m.pmm.maxFrames/32*32
      · exact hleast ⟨hgw, (hm.clear g hg).2⟩
      · omega

theorem covered_frame (hc : m.Covered) :
    Machine.Answers {f | m.free f = true} m.pmm.allocFrame.1 := by
  constructor
  · rintro ⟨f, hf⟩
    obtain ⟨hmem, g, hg, hgfree⟩ := hc.words f hf
    rw [allocFrame_first _ hmem]
    rcases first_free hm with ⟨-, hall⟩ | ⟨f', hsome, -, hleast⟩
    · rw [hall g hg] at hgfree
      cases hgfree
    · rw [hsome]
      refine ⟨?_, hleast⟩
      intro h0
      have hzero : m.free f' = true := hleast.1
      rw [show f' = 0 from h0, hc.zero] at hzero
      cases hzero
  · intro hempty
    by_cases hmem : m.pmm.getFreeMemory = 0
    · unfold Pmm.allocFrame
      rw [if_pos hmem]
    · rw [allocFrame_first _ hmem]
      rcases first_free hm with ⟨hnone, -⟩ | ⟨f', -, -, hleast⟩
      · rw [hnone]
        rfl
      · exact absurd hleast.1 (hempty ▸ Set.notMem_empty f')

omit hm in
theorem freeRuns_one (m : Machine) : m.freeRuns 1 = {f | m.free f = true} := by
  ext s
  constructor
  · exact fun h => h 0 (by decide)
  · intro h k hk
    obtain rfl : k = 0 := by omega
    exact h

/-- With a frame to be had in a complete word, bit zero is set, so no clear run begins there. -/
theorem covered_nonzero (hc : m.Covered) {n f r : ℕ} (hn : 1 ≤ n) (hf : m.free f = true)
    (hr : r ∈ m.clearRuns n) : r ≠ 0 := by
  intro h0
  obtain ⟨-, g, hg, -⟩ := hc.words f hf
  have hbit := hm.words 0 (by omega)
  have hclear := hr.2 0 (by omega)
  rw [h0, Nat.add_zero, hbit, hc.zero] at hclear
  cases hclear

theorem covered_blocks (hc : m.Covered) {n : ℕ} (hn : 2 ≤ n) :
    Machine.Answers (m.freeRuns n) (m.pmm.allocBlocks n).1 := by
  constructor
  · rintro ⟨s, hs⟩
    have hroom := hc.room n s hn hs
    rw [allocBlocks_first _ hroom]
    rcases getFreeBlocks_cases m.pmm hn with ⟨-, hall⟩ | ⟨r, hsome, hleast⟩
    · have hrun := freeRun_clear hm (by omega) hs
      obtain ⟨k, hk, hset⟩ := hall s hrun.1
      rw [hrun.2 k hk] at hset
      cases hset
    · have hne := covered_nonzero hm hc (by omega) (hs 0 (by omega)) hleast.1
      rw [hsome]
      refine ⟨hne, hc.clear n r hn hroom hne hleast, ?_⟩
      exact fun t ht => hleast.2 (freeRun_clear hm (by omega) ht)
  · intro hempty
    by_cases hroom : u32 (n*4096) ≤ m.pmm.getFreeMemory
    · rw [allocBlocks_first _ hroom]
      rcases getFreeBlocks_cases m.pmm hn with ⟨hnone, -⟩ | ⟨r, hsome, hleast⟩
      · rw [hnone]
        rfl
      · rw [hsome]
        by_contra hne
        exact absurd (hc.clear n r hn hroom hne hleast) (hempty ▸ Set.notMem_empty r)
    · exact allocBlocks_refused _ hroom

omit hm in
theorem complete_zero (h : m.Complete) : m.free 0 = false := by
  cases h0 : m.free 0 with
  | false => rfl
  | true =>
    obtain ⟨hne, hleast⟩ := h.frame.1 ⟨0, h0⟩
    exact absurd (Nat.le_zero.mp (hleast.2 h0)) hne

theorem complete_words (h : m.Complete) {f : ℕ} (hf : m.free f = true) :
    m.pmm.getFreeMemory ≠ 0 ∧ ∃ g < m.pmm.maxFrames/32*32, m.free g = true := by
  obtain ⟨hne, -⟩ := h.frame.1 ⟨f, hf⟩
  by_cases hmem : m.pmm.getFreeMemory = 0
  · unfold Pmm.allocFrame at hne
    rw [if_pos hmem] at hne
    exact absurd rfl hne
  · rw [allocFrame_first _ hmem] at hne
    rcases first_free hm with ⟨hnone, -⟩ | ⟨g, -, hg, hleast⟩
    · rw [hnone] at hne
      exact absurd rfl hne
    · exact ⟨hmem, g, hg, hleast.1⟩

/-- The answers are right exactly in the states that are covered. -/
theorem complete_iff_covered : m.Complete ↔ m.Covered := by
  constructor
  · intro h
    constructor
    · exact complete_zero h
    · exact fun f hf => complete_words hm h hf
    · intro n s hn hs
      by_contra hroom
      exact ((h.blocks n (by omega)).1 ⟨s, hs⟩).1 (allocBlocks_refused _ hroom)
    · intro n s hn hroom hne hleast
      have hfound : (m.pmm.allocBlocks n).1 = s := by
        rw [allocBlocks_first _ hroom]
        rcases getFreeBlocks_cases m.pmm hn with ⟨-, hall⟩ | ⟨r, hsome, hr⟩
        · obtain ⟨k, hk, hset⟩ := hall s hleast.1.1
          rw [hleast.1.2 k hk] at hset
          cases hset
        · rw [hsome]
          exact hr.unique hleast
      have hanswer := h.blocks n (by omega)
      rw [hfound] at hanswer
      by_cases hempty : m.freeRuns n = ∅
      · exact absurd (hanswer.2 hempty) hne
      · exact (hanswer.1 (Set.nonempty_iff_ne_empty.mpr hempty)).2.1
  · intro hc
    constructor
    · exact covered_frame hm hc
    · intro n hn
      by_cases h1 : n = 1
      · rw [h1, freeRuns_one, allocBlocks_one]
        exact covered_frame hm hc
      · exact covered_blocks hm hc (by omega)

end Answering

section Steps

/-- The loop of `set_region_free`. -/
theorem clearFrames_spec (p : Pmm) (first n : ℕ) :
    ((List.range n).foldl (fun p i =>
      { p.clearFrame (first+i) with usedFrames := sub32 p.usedFrames 1 }) p).maxFrames =
        p.maxFrames ∧
    ∀ f, ((List.range n).foldl (fun p i =>
      { p.clearFrame (first+i) with usedFrames := sub32 p.usedFrames 1 }) p).memoryBitmap f =
        if first ≤ f ∧ f < first+n then false else p.memoryBitmap f := by
  induction n with
  | zero =>
    constructor
    · rfl
    · exact fun f => (if_neg (by omega)).symm
  | succ n ih =>
    rw [List.range_succ, List.foldl_append]
    generalize (List.range n).foldl _ p = q at ih ⊢
    constructor
    · exact ih.1
    · intro f
      change (if f = first+n then false else q.memoryBitmap f) = _
      rw [ih.2 f]
      split_ifs <;> first | rfl | omega

/-- The loop of `alloc_blocks`. -/
theorem markFrames_spec (p : Pmm) (first n : ℕ) :
    ((List.range n).foldl (fun p i => p.markUsed (first+i)) p).maxFrames = p.maxFrames ∧
    ∀ f, ((List.range n).foldl (fun p i => p.markUsed (first+i)) p).memoryBitmap f =
        if first ≤ f ∧ f < first+n then true else p.memoryBitmap f := by
  induction n with
  | zero =>
    constructor
    · rfl
    · exact fun f => (if_neg (by omega)).symm
  | succ n ih =>
    rw [List.range_succ, List.foldl_append]
    generalize (List.range n).foldl _ p = q at ih ⊢
    constructor
    · exact ih.1
    · intro f
      change (if f = first+n then true else q.memoryBitmap f) = _
      rw [ih.2 f]
      split_ifs <;> first | rfl | omega

variable {m : Machine}

/-- Nothing is handed out, and the bitmap stays. -/
theorem mapped_kept (hm : m.Mapped) (count : ℕ) : (m.handOut m.pmm 0 count).Mapped := by
  have hfree (f : ℕ) : (m.handOut m.pmm 0 count).free f = m.free f := by
    simp [Machine.handOut]
  constructor
  · intro f hf
    rw [hfree]
    exact hm.words f hf
  · intro f hf
    rw [hfree] at hf
    exact hm.clear f hf

/-- Frames are handed out, and their bits are set. -/
theorem mapped_handOut (hm : m.Mapped) {p : Pmm} {first count : ℕ} (hfirst : first ≠ 0)
    (hmax : p.maxFrames = m.pmm.maxFrames)
    (hbits : ∀ f, p.memoryBitmap f =
      if first ≤ f ∧ f < first+count then true else m.pmm.memoryBitmap f) :
    (m.handOut p first count).Mapped := by
  have hfree (f : ℕ) : (m.handOut p first count).free f =
      if first ≤ f ∧ f < first+count then false else m.free f := by
    by_cases hin : first ≤ f ∧ f < first+count
    · simp [Machine.handOut, hfirst, hin]
    · rw [if_neg hin]
      simp only [Machine.handOut, Bool.and_eq_left_iff_imp]
      intro _
      rw [← Bool.decide_and, decide_eq_false hin]
      simp
  constructor
  · intro f hf
    rw [hfree]
    change p.memoryBitmap f = _
    rw [hbits]
    split_ifs
    · rfl
    · exact hm.words f (hmax ▸ hf)
  · intro f hf
    rw [hfree] at hf
    change f < p.maxFrames ∧ p.memoryBitmap f = false
    rw [hbits, hmax]
    split_ifs at hf ⊢
    exact hm.clear f hf

/-- No frame is free, and there is no complete word. -/
theorem mapped_nothing (hfree : ∀ f, m.free f = false) {p : Pmm} {first count : ℕ}
    (hmax : p.maxFrames/32*32 = 0) : (m.handOut p first count).Mapped := by
  constructor
  · intro f hf
    change f < p.maxFrames/32*32 at hf
    omega
  · intro f hf
    change (m.free f && _) = true at hf
    rw [hfree f] at hf
    cases hf

/-- A block that begins with frame zero can only be found when there is no complete word. -/
theorem covered_zero_clear (hm : m.Mapped) (hc : m.Covered) (hbit : m.pmm.memoryBitmap 0 = false) :
    m.pmm.maxFrames/32*32 = 0 ∧ ∀ f, m.free f = false := by
  have hnone : m.pmm.maxFrames/32*32 = 0 := by
    by_contra hsome
    have hset := hm.words 0 (by omega)
    rw [hbit, hc.zero] at hset
    cases hset
  constructor
  · exact hnone
  · intro f
    rw [Bool.eq_false_iff]
    intro hf
    obtain ⟨-, g, hg, -⟩ := hc.words f hf
    omega

theorem mapped_allocFrame (hm : m.Mapped) (hc : m.Covered) : (m.step .allocFrame).Mapped := by
  change (m.handOut m.pmm.allocFrame.2 m.pmm.allocFrame.1 1).Mapped
  rcases allocFrame_eq m.pmm with heq | ⟨f, hlt, hbit, heq⟩
  · rw [heq]
    exact mapped_kept hm 1
  · have hspec := occupy_spec m.pmm f (u32 (m.pmm.usedFrames+1))
    rw [heq]
    by_cases h0 : f = 0
    · rw [h0] at hbit
      have hnothing := covered_zero_clear hm hc hbit
      exact mapped_nothing hnothing.2 hnothing.1
    · apply mapped_handOut hm h0 hspec.1
      intro g
      by_cases hg : g = f
      · rw [hg, if_pos (by omega)]
        exact hspec.2.1
      · rw [if_neg (by omega)]
        exact (hspec.2.2.2 g hg).1

theorem mapped_allocBlocks (hm : m.Mapped) (hc : m.Covered) (n : ℕ) :
    (m.step (.allocBlocks n)).Mapped := by
  change (m.handOut (m.pmm.allocBlocks n).2 (m.pmm.allocBlocks n).1 n).Mapped
  rcases allocBlocks_eq m.pmm n with heq | ⟨first, hn, hlt, hclear, heq⟩
  · rw [heq]
    exact mapped_kept hm n
  · have hspec := markFrames_spec m.pmm first n
    rw [heq]
    by_cases h0 : first = 0
    · have hbit := hclear 0 (by omega)
      rw [h0] at hbit
      have hnothing := covered_zero_clear hm hc hbit
      exact mapped_nothing hnothing.2 (hspec.1 ▸ hnothing.1)
    · exact mapped_handOut hm h0 hspec.1 hspec.2

theorem mapped_setRegionFree (hm : m.Mapped) (base size : ℕ) :
    (m.step (.setRegionFree base size)).Mapped := by
  have hspec := clearFrames_spec m.pmm (base/4096) (size/4096)
  have hfree (f : ℕ) : (m.step (.setRegionFree base size)).free f = true ↔ m.free f = true ∨
      (base/4096 ≤ f ∧ f < base/4096+size/4096) ∧ f < m.pmm.maxFrames := by
    simp [Machine.step]
  constructor
  · intro f hf
    change f < (m.pmm.setRegionFree base size).maxFrames/32*32 at hf
    change (m.pmm.setRegionFree base size).memoryBitmap f = _
    unfold Pmm.setRegionFree at hf ⊢
    rw [hspec.1] at hf
    rw [hspec.2]
    split_ifs with hin
    · rw [(hfree f).mpr (.inr ⟨hin, by omega⟩)]
      rfl
    · have hsame : (m.step (.setRegionFree base size)).free f = m.free f := by
        rw [Bool.eq_iff_iff, hfree]
        simp [hin]
      rw [hsame]
      exact hm.words f hf
  · intro f hf
    change f < (m.pmm.setRegionFree base size).maxFrames ∧
      (m.pmm.setRegionFree base size).memoryBitmap f = false
    unfold Pmm.setRegionFree
    rw [hspec.1, hspec.2]
    rcases (hfree f).mp hf with hold | ⟨hin, hlt⟩
    · split_ifs
      · exact ⟨(hm.clear f hold).1, rfl⟩
      · exact hm.clear f hold
    · rw [if_pos hin]
      exact ⟨hlt, rfl⟩

theorem mapped_giveBack (hm : m.Mapped) (frame : ℕ) :
    (m.giveBack (m.pmm.freeFrame frame) frame).Mapped := by
  have hfree (f : ℕ) : (m.giveBack (m.pmm.freeFrame frame) frame).free f = true ↔
      m.free f = true ∨ f = frame ∧ frame < m.pmm.maxFrames ∧ m.pmm.refcounts frame ≤ 1 := by
    simp [Machine.giveBack, and_assoc]
  have hmax := freeFrame_maxFrames m.pmm frame
  constructor
  · intro f hf
    change f < (m.pmm.freeFrame frame).maxFrames/32*32 at hf
    change (m.pmm.freeFrame frame).memoryBitmap f = _
    rw [hmax] at hf
    rw [freeFrame_bitmap]
    split_ifs with hin
    · rw [(hfree f).mpr (.inr hin)]
      rfl
    · have hsame : (m.giveBack (m.pmm.freeFrame frame) frame).free f = m.free f := by
        rw [Bool.eq_iff_iff, hfree]
        exact or_iff_left hin
      rw [hsame]
      exact hm.words f hf
  · intro f hf
    change f < (m.pmm.freeFrame frame).maxFrames ∧
      (m.pmm.freeFrame frame).memoryBitmap f = false
    rw [hmax, freeFrame_bitmap]
    rcases (hfree f).mp hf with hold | hin
    · split_ifs
      · exact ⟨(hm.clear f hold).1, rfl⟩
      · exact hm.clear f hold
    · rw [if_pos hin]
      exact ⟨hin.1 ▸ hin.2.1, rfl⟩

/-- Every operation in a covered state keeps the bitmap right. -/
theorem mapped_step (hm : m.Mapped) (hc : m.Covered) (op : Op) : (m.step op).Mapped := by
  cases op with
  | setRegionFree base size => exact mapped_setRegionFree hm base size
  | allocFrame => exact mapped_allocFrame hm hc
  | allocBlocks count => exact mapped_allocBlocks hm hc count
  | freeFrame frame => exact mapped_giveBack hm frame
  | decRef frame =>
    change (m.giveBack (m.pmm.decRef frame) frame).Mapped
    rw [decRef_eq]
    exact mapped_giveBack hm frame
  | incRef frame =>
    constructor
    · intro f hf
      change f < (m.pmm.incRef frame).maxFrames/32*32 at hf
      change (m.pmm.incRef frame).memoryBitmap f = !m.free f
      rw [incRef_maxFrames] at hf
      rw [incRef_memoryBitmap]
      exact hm.words f hf
    · intro f hf
      change f < (m.pmm.incRef frame).maxFrames ∧ (m.pmm.incRef frame).memoryBitmap f = false
      rw [incRef_maxFrames, incRef_memoryBitmap]
      exact hm.clear f hf

theorem start_mapped (p₀ : Pmm) (memorySize : ℕ) : (Machine.start p₀ memorySize).Mapped := by
  constructor
  · exact fun f hf => if_pos hf
  · exact fun f hf => absurd hf Bool.false_ne_true

end Steps

/-- Whatever the memory held and whatever is done, the allocator answers every request of a run
with the lowest free frame or run exactly if every state of the run is covered. -/
theorem complete_run_iff (p₀ : Pmm) (memorySize : ℕ) (ops : List Op) :
    Always Machine.step Machine.Complete (Machine.start p₀ memorySize) ops ↔
      Always Machine.step Machine.Covered (Machine.start p₀ memorySize) ops :=
  always_congr (I := Machine.Mapped)
    (fun _ op hm h => mapped_step hm ((complete_iff_covered hm).mp h) op)
    (fun _ hm => complete_iff_covered hm) (start_mapped p₀ memorySize) ops

/-- The only free frame of 33 is the last one, and no frame is found. -/
theorem tail_frame_lost : ¬Always Machine.step Machine.Complete
    (Machine.start zeroed (33*4096)) [.setRegionFree (32*4096) 4096] := by
  intro h
  have hlast := (h _ List.prefix_rfl).frame.1 ⟨32, by decide +kernel⟩
  exact hlast.1 (by decide +kernel)

end Vlsmc.FrameCompleteness
