import Vlsmc.Words
import Vlsmc.SharedFrames

/-!
# The physical memory manager

Frames are named by number; a null pointer is frame zero. The bitmap is read
bit by bit: word `i`, bit `j` belongs to frame `32*i+j`.
-/

set_option autoImplicit false

namespace Vlsmc.PhysicalMemory
open Vlsmc.Words Vlsmc.SharedFrames

structure Pmm where
  memoryBitmap : ℕ → Bool
  maxFrames : ℕ
  usedFrames : ℕ
  refcounts : ℕ → ℕ

namespace Pmm

def setFrame (p : Pmm) (frame : ℕ) : Pmm :=
  { p with memoryBitmap := fun f => if f = frame then true else p.memoryBitmap f }

def clearFrame (p : Pmm) (frame : ℕ) : Pmm :=
  { p with memoryBitmap := fun f => if f = frame then false else p.memoryBitmap f }

def setRefcount (p : Pmm) (frame n : ℕ) : Pmm :=
  { p with refcounts := fun f => if f = frame then n else p.refcounts f }

def getFreeMemory (p : Pmm) : ℕ := u32 (sub32 p.maxFrames p.usedFrames*4096)

/-- The words below `PMM_BITMAP_INDEX(max_frames_)` are searched. -/
def getFirstFreeFrame (p : Pmm) : Option ℕ :=
  (List.range (p.maxFrames/32*32)).find? fun f => !p.memoryBitmap f

def occupy (p : Pmm) (frame used : ℕ) : Pmm :=
  ({ p.setFrame frame with usedFrames := used } : Pmm).setRefcount frame 1

/-- The frame that was allocated, or zero for `nullptr`. -/
def allocFrame (p : Pmm) : ℕ × Pmm :=
  if p.getFreeMemory = 0 then (0, p)
  else
    match p.getFirstFreeFrame with
    | none => (0, p)
    | some f => (f, p.occupy f (u32 (p.usedFrames+1)))

def freeFrame (p : Pmm) (frame : ℕ) : Pmm :=
  if p.maxFrames ≤ frame then p
  else if 1 < p.refcounts frame then p.setRefcount frame (p.refcounts frame-1)
  else { (p.setRefcount frame 0).clearFrame frame with
    usedFrames := sub32 p.usedFrames 1 }

def incRef (p : Pmm) (frame : ℕ) : Pmm :=
  if frame < p.maxFrames ∧ p.refcounts frame < 255 then
    p.setRefcount frame (p.refcounts frame+1)
  else p

/-- Bits and counts beyond the managed frames keep what the memory held. -/
def init (p : Pmm) (memorySize : ℕ) : Pmm where
  memoryBitmap := fun f => if f < memorySize/4096/32*32 then true else p.memoryBitmap f
  maxFrames := memorySize/4096
  usedFrames := memorySize/4096
  refcounts := fun f => if f < memorySize/4096 then 0 else p.refcounts f

def setRegionFree (p : Pmm) (base size : ℕ) : Pmm :=
  (List.range (size/4096)).foldl (fun p i =>
    { p.clearFrame (base/4096+i) with usedFrames := sub32 p.usedFrames 1 }) p

/-- The loop of `get_free_blocks` with its `current_count` and `start_frame`. -/
def scanFree (p : Pmm) (count : ℕ) : List ℕ → ℕ → ℕ → Option ℕ
  | [], _, _ => none
  | i::is, current, start =>
    if p.memoryBitmap i then scanFree p count is 0 start
    else
      let start := if current = 0 then i else start
      if current+1 = count then some start else scanFree p count is (current+1) start

def getFreeBlocks (p : Pmm) (count : ℕ) : Option ℕ :=
  if count = 0 then none
  else if count = 1 then p.getFirstFreeFrame
  else p.scanFree count (List.range p.maxFrames) 0 4294967295

def markUsed (p : Pmm) (frame : ℕ) : Pmm :=
  { p.setFrame frame with usedFrames := u32 (p.usedFrames+1) }

/-- The first frame of the block, or zero for `nullptr`. -/
def allocBlocks (p : Pmm) (count : ℕ) : ℕ × Pmm :=
  if p.getFreeMemory < u32 (count*4096) then (0, p)
  else
    match p.getFreeBlocks count with
    | none => (0, p)
    | some start => (start, (List.range count).foldl (fun p i => p.markUsed (start+i)) p)

def decRef (p : Pmm) (frame : ℕ) : Pmm :=
  if p.maxFrames ≤ frame then p else p.freeFrame frame

def getRefcount (p : Pmm) (frame : ℕ) : ℕ :=
  if p.maxFrames ≤ frame then 0 else p.refcounts frame

end Pmm

theorem decRef_eq (p : Pmm) (f : ℕ) : p.decRef f = p.freeFrame f := by
  unfold Pmm.decRef Pmm.freeFrame
  split <;> rfl

/-- What an operation leaves of a frame. -/
def Same (p q : Pmm) (f : ℕ) : Prop :=
  q.memoryBitmap f = p.memoryBitmap f ∧ q.refcounts f = p.refcounts f

theorem setRefcount_same (p : Pmm) {f g : ℕ} (n : ℕ) (h : g ≠ f) : Same p (p.setRefcount f n) g :=
  ⟨rfl, if_neg h⟩

theorem setRefcount_refcounts (p : Pmm) (f n : ℕ) : (p.setRefcount f n).refcounts f = n := if_pos rfl

theorem getFirstFreeFrame_some {p : Pmm} {f : ℕ} (h : p.getFirstFreeFrame = some f) :
    f < p.maxFrames ∧ p.memoryBitmap f = false := by
  have hmem := List.mem_of_find?_eq_some h
  have hbit := List.find?_some h
  rw [List.mem_range] at hmem
  exact ⟨by omega, by simpa using hbit⟩

theorem occupy_spec (p : Pmm) (f n : ℕ) : (p.occupy f n).maxFrames = p.maxFrames ∧
    (p.occupy f n).memoryBitmap f = true ∧ (p.occupy f n).refcounts f = 1 ∧
    ∀ g, g ≠ f → Same p (p.occupy f n) g := by
  refine ⟨rfl, if_pos rfl, if_pos rfl, ?_⟩
  intro g hg
  exact ⟨if_neg hg, if_neg hg⟩

theorem allocFrame_eq (p : Pmm) : p.allocFrame = (0, p) ∨
    ∃ f, f < p.maxFrames ∧ p.memoryBitmap f = false ∧
      p.allocFrame = (f, p.occupy f (u32 (p.usedFrames+1))) := by
  by_cases hfree : p.getFreeMemory = 0
  · left
    rw [Pmm.allocFrame, if_pos hfree]
  · cases h : p.getFirstFreeFrame with
    | none =>
      left
      rw [Pmm.allocFrame, if_neg hfree, h]
    | some f =>
      obtain ⟨hlt, hbit⟩ := getFirstFreeFrame_some h
      refine Or.inr ⟨f, hlt, hbit, ?_⟩
      rw [Pmm.allocFrame, if_neg hfree, h]

/-- A frame that is allocated was marked free before. -/
theorem allocFrame_cases (p : Pmm) :
    (p.allocFrame).1 = 0 ∨
    ∃ f, f < p.maxFrames ∧ p.memoryBitmap f = false ∧ (p.allocFrame).1 = f ∧
      (p.allocFrame).2.maxFrames = p.maxFrames ∧ (p.allocFrame).2.memoryBitmap f = true ∧
      (p.allocFrame).2.refcounts f = 1 ∧ ∀ g, g ≠ f → Same p (p.allocFrame).2 g := by
  rcases allocFrame_eq p with heq | ⟨f, hlt, hbit, heq⟩
  · rw [heq]
    exact Or.inl rfl
  · rw [heq]
    exact Or.inr ⟨f, hlt, hbit, rfl, occupy_spec p f _⟩

theorem allocFrame_maxFrames (p : Pmm) : (p.allocFrame).2.maxFrames = p.maxFrames := by
  rcases allocFrame_eq p with heq | ⟨f, -, -, heq⟩
  · rw [heq]
  · rw [heq]
    exact (occupy_spec p f _).1

theorem freeFrame_maxFrames (p : Pmm) (f : ℕ) : (p.freeFrame f).maxFrames = p.maxFrames := by
  unfold Pmm.freeFrame
  generalize sub32 p.usedFrames 1 = n
  split_ifs <;> rfl

theorem freeFrame_same (p : Pmm) {f g : ℕ} (h : g ≠ f) : Same p (p.freeFrame f) g := by
  unfold Pmm.freeFrame
  generalize sub32 p.usedFrames 1 = n
  split_ifs
  · exact ⟨rfl, rfl⟩
  · exact setRefcount_same p _ h
  · exact ⟨if_neg h, if_neg h⟩

/-- The last reference frees the frame. -/
theorem freeFrame_last (p : Pmm) {f : ℕ} (h : f < p.maxFrames) (hrc : p.refcounts f ≤ 1) :
    (p.freeFrame f).memoryBitmap f = false ∧ (p.freeFrame f).refcounts f = 0 := by
  unfold Pmm.freeFrame
  generalize sub32 p.usedFrames 1 = n
  rw [if_neg (by omega), if_neg (by omega)]
  exact ⟨if_pos rfl, if_pos rfl⟩

theorem freeFrame_shared (p : Pmm) {f : ℕ} (h : f < p.maxFrames) (hrc : 1 < p.refcounts f) :
    (p.freeFrame f).memoryBitmap f = p.memoryBitmap f ∧
      (p.freeFrame f).refcounts f = p.refcounts f-1 := by
  unfold Pmm.freeFrame
  rw [if_neg (by omega), if_pos hrc]
  exact ⟨rfl, if_pos rfl⟩

/-- The bits after a frame is given back. -/
theorem freeFrame_bitmap (p : Pmm) (f g : ℕ) : (p.freeFrame f).memoryBitmap g =
    if g = f ∧ f < p.maxFrames ∧ p.refcounts f ≤ 1 then false else p.memoryBitmap g := by
  by_cases hg : g = f
  · by_cases hlt : f < p.maxFrames
    · by_cases hlast : p.refcounts f ≤ 1
      · rw [if_pos ⟨hg, hlt, hlast⟩, hg]
        exact (freeFrame_last p hlt hlast).1
      · rw [if_neg fun h => hlast h.2.2, hg]
        exact (freeFrame_shared p hlt (by omega)).1
    · rw [if_neg fun h => hlt h.2.1]
      unfold Pmm.freeFrame
      rw [if_pos (by omega)]
  · rw [if_neg fun h => hg h.1]
    exact (freeFrame_same p hg).1

theorem incRef_maxFrames (p : Pmm) (f : ℕ) : (p.incRef f).maxFrames = p.maxFrames := by
  unfold Pmm.incRef
  split_ifs <;> rfl

theorem incRef_memoryBitmap (p : Pmm) (f : ℕ) : (p.incRef f).memoryBitmap = p.memoryBitmap := by
  unfold Pmm.incRef
  split_ifs <;> rfl

theorem incRef_same (p : Pmm) {f g : ℕ} (h : g ≠ f) : Same p (p.incRef f) g := by
  unfold Pmm.incRef
  split_ifs
  · exact setRefcount_same p _ h
  · exact ⟨rfl, rfl⟩

theorem incRef_refcounts (p : Pmm) {f : ℕ} (h : f < p.maxFrames) (hrc : p.refcounts f < 255) :
    (p.incRef f).refcounts f = p.refcounts f+1 := by
  rw [Pmm.incRef, if_pos ⟨h, hrc⟩]
  exact if_pos rfl

section Ledger

variable {κ : Type*} [DecidableEq κ]

/-- The slots of `M` hold frames, and the frames in `own` belong to the
kernel. `pid` tells the process of a slot: a process holds a frame at most once. -/
structure Ledger (p : Pmm) (M : κ → Option ℕ) (own : ℕ → Prop) (pid : κ → ℕ) : Prop where
  held : ∀ x f, M x = some f → f ≠ 0 ∧ f < p.maxFrames ∧ p.memoryBitmap f = true
  counted : ∀ f, ¬ own f → p.refcounts f = (holders M f).ncard
  owned : ∀ t, own t → p.memoryBitmap t = true ∧ p.refcounts t ≤ 1
  apart : ∀ x f, M x = some f → ¬ own f
  finite : ∀ f, (holders M f).Finite
  once : ∀ x y f, M x = some f → M y = some f → pid x = pid y → x = y
  pids : ∀ x f, M x = some f → pid x < 32

variable {p : Pmm} {M : κ → Option ℕ} {own : ℕ → Prop} {pid : κ → ℕ}

omit [DecidableEq κ] in
theorem ledger_count_le (h : Ledger p M own pid) (f : ℕ) : (holders M f).ncard ≤ 32 :=
  ncard_le_of_key pid 32 (fun y hy => h.pids y f hy) fun x hx y hy he => h.once x y f hx hy he

omit [DecidableEq κ] in
/-- A frame that is marked free is held by nobody. -/
theorem ledger_fresh (h : Ledger p M own pid) {f : ℕ} (hf : p.memoryBitmap f = false) :
    (∀ x, M x ≠ some f) ∧ ¬ own f := by
  constructor
  · intro x hx
    simp [(h.held x f hx).2.2] at hf
  · intro ho
    simp [(h.owned f ho).1] at hf

omit [DecidableEq κ] in
theorem ledger_congr (h : Ledger p M own pid) {M' : κ → Option ℕ} {own' : ℕ → Prop}
    (hM : ∀ x, M' x = M x) (hown : ∀ t, own' t ↔ own t) : Ledger p M' own' pid := by
  have h1 : M' = M := funext hM
  have h2 : own' = own := funext fun t => propext (hown t)
  rwa [h1, h2]

omit [DecidableEq κ] in
/-- The kernel keeps an allocated frame for itself. -/
theorem ledger_alloc_own (h : Ledger p M own pid) (hf : p.allocFrame.1 ≠ 0) :
    Ledger p.allocFrame.2 M (fun t => own t ∨ t = p.allocFrame.1) pid ∧
      (∀ x, M x ≠ some p.allocFrame.1) ∧ ¬ own p.allocFrame.1 ∧
      p.allocFrame.1 < p.maxFrames ∧ p.allocFrame.2.maxFrames = p.maxFrames ∧
      p.allocFrame.2.refcounts p.allocFrame.1 = 1 := by
  rcases allocFrame_cases p with h0 | ⟨f, hlt, hbit, hfst, hmax, hset, hone, hsame⟩
  · exact absurd h0 hf
  · rw [hfst] at hf ⊢
    obtain ⟨hfree, hown⟩ := ledger_fresh h hbit
    have hne : ∀ x g, M x = some g → g ≠ f := fun x g hx he => hfree x (he ▸ hx)
    refine ⟨⟨fun x g hx => ?_, fun g hg => ?_, fun t ht => ?_, fun x g hx ho => ?_, h.finite,
      h.once, h.pids⟩, hfree, hown, hlt, hmax, hone⟩
    · rw [hmax, (hsame g (hne x g hx)).1]
      exact h.held x g hx
    · rw [not_or] at hg
      rw [(hsame g hg.2).2]
      exact h.counted g hg.1
    · by_cases htf : t = f
      · rw [htf]
        exact ⟨hset, hone.le⟩
      · rw [(hsame t htf).1, (hsame t htf).2]
        exact h.owned t (ht.resolve_right htf)
    · rcases ho with ho | ho
      · exact h.apart x g hx ho
      · exact hne x g hx ho

omit [DecidableEq κ] in
/-- The kernel gives one of its own frames back. -/
theorem ledger_free_own (h : Ledger p M own pid) {t : ℕ} (ht : own t) (hlt : t < p.maxFrames) :
    Ledger (p.freeFrame t) M (fun s => own s ∧ s ≠ t) pid := by
  obtain ⟨hbit, hrc⟩ := h.owned t ht
  have hempty : holders M t = ∅ :=
    Set.eq_empty_of_forall_notMem fun x hx => h.apart x t hx ht
  refine ⟨fun x g hx => ?_, fun g hg => ?_, fun s hs => ?_, fun x g hx ho => h.apart x g hx ho.1,
    h.finite, h.once, h.pids⟩
  · have hgt : g ≠ t := fun he => h.apart x g hx (he ▸ ht)
    rw [freeFrame_maxFrames, (freeFrame_same p hgt).1]
    exact h.held x g hx
  · by_cases hgt : g = t
    · rw [hgt, (freeFrame_last p hlt hrc).2, hempty, Set.ncard_empty]
    · rw [(freeFrame_same p hgt).2]
      exact h.counted g fun ho => hg ⟨ho, hgt⟩
  · rw [(freeFrame_same p hs.2).1, (freeFrame_same p hs.2).2]
    exact h.owned s hs.1

/-- A further slot takes a frame that is already held: `inc_ref`. -/
theorem ledger_share (h : Ledger p M own pid) {x y : κ} {f : ℕ} (hx : M x = some f)
    (hy : M y = none) (hpid : pid y < 32) (hnew : ∀ z, M z = some f → pid z ≠ pid y) :
    Ledger (p.incRef f) (setSlot M y (some f)) own pid := by
  obtain ⟨h0, hlt, hbit⟩ := h.held x f hx
  have hrc := h.counted f (h.apart x f hx)
  have hle := ledger_count_le h f
  have hcases : ∀ z g, setSlot M y (some f) z = some g → (z = y ∧ g = f) ∨
      (z ≠ y ∧ M z = some g) := by
    intro z g hz
    by_cases hzy : z = y
    · rw [hzy, setSlot_same] at hz
      exact Or.inl ⟨hzy, (Option.some.inj hz).symm⟩
    · rw [setSlot_ne _ _ hzy] at hz
      exact Or.inr ⟨hzy, hz⟩
  refine ⟨fun z g hz => ?_, fun g hg => ?_, fun t ht => ?_, fun z g hz => ?_, fun g => ?_,
    fun z w g hz hw he => ?_, fun z g hz => ?_⟩
  · rw [incRef_maxFrames, incRef_memoryBitmap]
    rcases hcases z g hz with ⟨-, rfl⟩ | ⟨-, hz'⟩
    · exact ⟨h0, hlt, hbit⟩
    · exact h.held z g hz'
  · by_cases hgf : g = f
    · rw [hgf, ncard_take hy (h.finite f), incRef_refcounts p hlt (by omega), hrc]
    · rw [(incRef_same p hgf).2, holders_take_other hy hgf]
      exact h.counted g hg
  · have htf : t ≠ f := fun he => h.apart x f hx (he ▸ ht)
    rw [(incRef_same p htf).1, (incRef_same p htf).2]
    exact h.owned t ht
  · rcases hcases z g hz with ⟨-, rfl⟩ | ⟨-, hz'⟩
    · exact h.apart x g hx
    · exact h.apart z g hz'
  · by_cases hg : g = f
    · rw [hg, holders_take]
      exact (h.finite f).insert y
    · rw [holders_take_other hy hg]
      exact h.finite g
  · rcases hcases z g hz with ⟨rfl, rfl⟩ | ⟨-, hz'⟩
    · rcases hcases w g hw with ⟨rfl, -⟩ | ⟨-, hw'⟩
      · rfl
      · exact absurd he.symm (hnew w hw')
    · rcases hcases w g hw with ⟨rfl, rfl⟩ | ⟨-, hw'⟩
      · exact absurd he (hnew z hz')
      · exact h.once z w g hz' hw' he
  · rcases hcases z g hz with ⟨rfl, -⟩ | ⟨-, hz'⟩
    · exact hpid
    · exact h.pids z g hz'

/-- A slot gives its frame back: `free_frame`. -/
theorem ledger_drop (h : Ledger p M own pid) {x : κ} {f : ℕ} (hx : M x = some f) :
    Ledger (p.freeFrame f) (setSlot M x none) own pid := by
  obtain ⟨h0, hlt, hbit⟩ := h.held x f hx
  have hrc := h.counted f (h.apart x f hx)
  have hcard := ncard_drop hx (h.finite f)
  have hold : ∀ z g, setSlot M x none z = some g → M z = some g := by
    intro z g hz
    by_cases hzx : z = x
    · rw [hzx, setSlot_same] at hz
      simp at hz
    · rwa [setSlot_ne _ _ hzx] at hz
  refine ⟨fun z g hz => ?_, fun g hg => ?_, fun t ht => ?_, fun z g hz => h.apart z g (hold z g hz),
    fun g => ?_, fun z w g hz hw => h.once z w g (hold z g hz) (hold w g hw),
    fun z g hz => h.pids z g (hold z g hz)⟩
  · rw [freeFrame_maxFrames]
    obtain ⟨h1, h2, h3⟩ := h.held z g (hold z g hz)
    by_cases hgf : g = f
    · subst hgf
      -- another holder is left, so the count was at least two
      have hpos : 1 ≤ (holders (setSlot M x none) g).ncard :=
        (Set.ncard_pos (by rw [holders_drop]; exact (h.finite g).sdiff)).mpr ⟨z, hz⟩
      rw [(freeFrame_shared p hlt (by omega)).1]
      exact ⟨h1, h2, h3⟩
    · rw [(freeFrame_same p hgf).1]
      exact ⟨h1, h2, h3⟩
  · by_cases hgf : g = f
    · rw [hgf]
      by_cases hlast : p.refcounts f ≤ 1
      · rw [(freeFrame_last p hlt hlast).2]
        omega
      · rw [(freeFrame_shared p hlt (by omega)).2]
        omega
    · rw [(freeFrame_same p hgf).2, holders_drop_other hx hgf]
      exact h.counted g hg
  · have htf : t ≠ f := fun he => h.apart x f hx (he ▸ ht)
    rw [(freeFrame_same p htf).1, (freeFrame_same p htf).2]
    exact h.owned t ht
  · by_cases hg : g = f
    · rw [hg, holders_drop]
      exact (h.finite f).sdiff
    · rw [holders_drop_other hx hg]
      exact h.finite g

/-- A frame of the kernel becomes the frame of a slot. -/
theorem ledger_give {t : ℕ} {x : κ} (h : Ledger p M (fun f => own f ∨ f = t) pid) (hown : ¬ own t)
    (ht0 : t ≠ 0) (htmax : t < p.maxFrames) (hone : p.refcounts t = 1) (hx : M x = none)
    (hpid : pid x < 32) : Ledger p (setSlot M x (some t)) own pid := by
  have hfree : ∀ z, M z ≠ some t := fun z hz => h.apart z t hz (Or.inr rfl)
  have hempty : holders M t = ∅ := Set.eq_empty_of_forall_notMem fun z hz => hfree z hz
  have hcases : ∀ z g, setSlot M x (some t) z = some g → (z = x ∧ g = t) ∨
      (z ≠ x ∧ g ≠ t ∧ M z = some g) := by
    intro z g hz
    by_cases hzx : z = x
    · rw [hzx, setSlot_same] at hz
      exact Or.inl ⟨hzx, (Option.some.inj hz).symm⟩
    · rw [setSlot_ne _ _ hzx] at hz
      exact Or.inr ⟨hzx, fun he => hfree z (he ▸ hz), hz⟩
  refine ⟨fun z g hz => ?_, fun g hg => ?_, fun s hs => h.owned s (Or.inl hs), fun z g hz => ?_,
    fun g => ?_, fun z w g hz hw he => ?_, fun z g hz => ?_⟩
  · rcases hcases z g hz with ⟨-, rfl⟩ | ⟨-, -, hz'⟩
    · exact ⟨ht0, htmax, (h.owned g (Or.inr rfl)).1⟩
    · exact h.held z g hz'
  · by_cases hgt : g = t
    · rw [hgt, ncard_take hx (h.finite t), hempty, Set.ncard_empty, hone]
    · rw [holders_take_other hx hgt]
      exact h.counted g fun ho => ho.elim hg hgt
  · rcases hcases z g hz with ⟨-, rfl⟩ | ⟨-, -, hz'⟩
    · exact hown
    · exact fun ho => h.apart z g hz' (Or.inl ho)
  · by_cases hgt : g = t
    · rw [hgt, holders_take]
      exact (h.finite t).insert x
    · rw [holders_take_other hx hgt]
      exact h.finite g
  · rcases hcases z g hz with ⟨rfl, rfl⟩ | ⟨-, hg, hz'⟩
    · rcases hcases w g hw with ⟨rfl, -⟩ | ⟨-, hg, -⟩
      · rfl
      · exact absurd rfl hg
    · rcases hcases w g hw with ⟨-, rfl⟩ | ⟨-, -, hw'⟩
      · exact absurd rfl hg
      · exact h.once z w g hz' hw' he
  · rcases hcases z g hz with ⟨rfl, -⟩ | ⟨-, -, hz'⟩
    · exact hpid
    · exact h.pids z g hz'

end Ledger

end Vlsmc.PhysicalMemory
