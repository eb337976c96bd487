import Vlsmc.PageCache
import Vlsmc.StepConditions

/-!
# What the page cache answers

The cache is meant to be a map that may forget: a lookup answers zero or the frame
inserted last for the page. An insertion that finds an invalid slot before the entry of
its page leaves two entries for the page; when the newer of them is evicted, a lookup
answers the older frame.
-/

set_option autoImplicit false

namespace Vlsmc.CachedPages
open Vlsmc.Words Vlsmc.PageCache Vlsmc.StepConditions

/-- `PageCache::init`. -/
def clear (c : Cache) : Cache := fun i => { c i with valid := false }

def invalidate (c : Cache) (inode : ℕ) : Cache := fun i =>
  if (c i).valid && (c i).inode == inode then { c i with valid := false } else c i

inductive Call
  | lookup (inode offset : ℕ)
  | insert (inode offset physFrame : ℕ)
  | invalidate (inode : ℕ)

/-- The cache, and the frame each page was given last since its file was invalidated. -/
structure Tracked where
  cache : Cache
  latest : ℕ → ℕ → ℕ

namespace Tracked

def start (c : Cache) : Tracked := ⟨clear c, fun _ _ => 0⟩

def step (t : Tracked) : Call → Tracked
  | .lookup _ _ => t
  | .insert inode offset physFrame =>
    ⟨PageCache.insert t.cache inode offset physFrame, fun i o =>
      if i = inode ∧ o = offset then physFrame else t.latest i o⟩
  | .invalidate inode =>
    ⟨CachedPages.invalidate t.cache inode, fun i o => if i = inode then 0 else t.latest i o⟩

def run (t : Tracked) (calls : List Call) : Tracked := calls.foldl step t

/-- Every lookup answers zero or the latest frame. -/
def Lossy (t : Tracked) : Prop :=
  ∀ inode offset, PageCache.lookup t.cache inode offset = 0 ∨
    PageCache.lookup t.cache inode offset = t.latest inode offset

end Tracked

/-- The entry at `idx` is a valid entry of the page. -/
def holds (c : Cache) (inode offset idx : ℕ) : Bool :=
  (c idx).valid && (c idx).isFor inode offset

/-- All four slots of the page are taken by other pages. -/
def Crowded (c : Cache) (inode offset : ℕ) : Prop :=
  ∀ idx ∈ probes inode offset, (c idx).valid = true ∧ (c idx).isFor inode offset = false

/-- The frame in the first entry of the page that does not stand at `idx`. -/
def otherFrame (c : Cache) (idx inode offset : ℕ) : Option ℕ :=
  ((probes inode offset).find? fun i => i != idx && holds c inode offset i).map
    fun i => (c i).physFrame

/-- An insertion that evicts an entry does not bring an older entry of that page to light. -/
def Keeps (t : Tracked) : Call → Prop
  | .insert inode offset _ => Crowded t.cache inode offset →
    ∀ frame, otherFrame t.cache (hash inode offset) (t.cache (hash inode offset)).inode
        (t.cache (hash inode offset)).offset = some frame →
      frame = 0 ∨ frame = t.latest (t.cache (hash inode offset)).inode
        (t.cache (hash inode offset)).offset
  | _ => True

section Lookups

variable {c c' : Cache} {inode offset i o idx physFrame : ℕ}

theorem isFor_iff {e : Entry} : e.isFor i o = true ↔ e.inode = i ∧ e.offset = o := by
  simp [Entry.isFor]

theorem lookup_eq (c : Cache) (i o : ℕ) : lookup c i o =
    (((probes i o).find? (holds c i o)).map fun j => (c j).physFrame).getD 0 := by
  have hpred : holds c i o = fun idx => (c idx).valid && (c idx).isFor i o := rfl
  unfold lookup
  rw [hpred]
  cases (probes i o).find? fun idx => (c idx).valid && (c idx).isFor i o with
  | none => rfl
  | some idx => rfl

/-- A lookup depends on the entries of its page only. -/
theorem lookup_congr (h : ∀ j, holds c' i o j = holds c i o j)
    (hf : ∀ j, holds c i o j = true → (c' j).physFrame = (c j).physFrame) :
    lookup c' i o = lookup c i o := by
  rw [lookup_eq, lookup_eq, funext h]
  cases hfind : (probes i o).find? (holds c i o) with
  | none => rfl
  | some j => exact hf j (List.find?_some hfind)

theorem setEntry_same (c : Cache) (idx : ℕ) (e : Entry) : setEntry c idx e idx = e := if_pos rfl

theorem setEntry_ne (c : Cache) (e : Entry) {j : ℕ} (h : j ≠ idx) : setEntry c idx e j = c j :=
  if_neg h

/-- A write between two other pages' entries. -/
theorem lookup_setEntry_other {e : Entry} (hold : holds c i o idx = false)
    (hnew : e.isFor i o = false) : lookup (setEntry c idx e) i o = lookup c i o := by
  apply lookup_congr
  · intro j
    by_cases hj : j = idx
    · rw [hj, hold, holds, setEntry_same, hnew, Bool.and_false]
    · rw [holds, setEntry_ne c e hj]
      rfl
  · intro j hholds
    have hj : j ≠ idx := by
      intro hj
      rw [hj, hold] at hholds
      cases hholds
    rw [setEntry_ne c e hj]

/-- The page of the entry written over: its other entry answers, if it has one. -/
theorem lookup_setEntry_evicted {e : Entry} (hnew : e.isFor i o = false) :
    lookup (setEntry c idx e) i o = (otherFrame c idx i o).getD 0 := by
  have hpred : holds (setEntry c idx e) i o = fun j => j != idx && holds c i o j := by
    ext1 j
    by_cases hj : j = idx
    · simp [holds, hj, setEntry_same, hnew]
    · simp [holds, setEntry_ne c e hj, hj]
  rw [lookup_eq, otherFrame, hpred]
  cases hfind : (probes i o).find? fun j => j != idx && holds c i o j with
  | none => rfl
  | some j =>
    have hj := List.find?_some hfind
    simp only [Bool.and_eq_true, bne_iff_ne] at hj
    rw [Option.map_some, Option.map_some, setEntry_ne c e hj.1]

theorem hash_lt (i o : ℕ) : hash i o < 256 := Nat.mod_lt _ (by decide)

theorem probes_cons (i o : ℕ) : probes i o =
    hash i o::(List.range' 1 3).map fun j => (hash i o+j)%256 := by
  have hrange : List.range 4 = 0::List.range' 1 3 := rfl
  rw [probes, hrange, List.map_cons, Nat.add_zero, Nat.mod_eq_of_lt (hash_lt i o)]

/-- The slot an insertion writes, and what it found there. -/
theorem insert_cases (c : Cache) (inode offset physFrame : ℕ) :
    (∃ idx as bs, probes inode offset = as++idx::bs ∧
      (∀ a ∈ as, (c a).valid = true ∧ (c a).isFor inode offset = false) ∧
      ((c idx).valid = false ∨ (c idx).isFor inode offset = true) ∧
      PageCache.insert c inode offset physFrame = setEntry c idx ⟨inode, offset, physFrame, true⟩) ∨
    Crowded c inode offset ∧ PageCache.insert c inode offset physFrame =
      setEntry c (hash inode offset) ⟨inode, offset, physFrame, true⟩ := by
  unfold PageCache.insert
  cases hfind : (probes inode offset).find? fun idx =>
      !(c idx).valid || (c idx).isFor inode offset with
  | none =>
    apply Or.inr
    constructor
    · intro idx hidx
      have h := List.find?_eq_none.mp hfind idx hidx
      simpa using h
    · simp only [Nat.mod_eq_of_lt (hash_lt inode offset)]
  | some idx =>
    apply Or.inl
    obtain ⟨hidx, as, bs, hl, has⟩ := List.find?_eq_some_iff_append.mp hfind
    exact ⟨idx, as, bs, hl, fun a ha => by simpa using has a ha, by simpa using hidx, rfl⟩

/-- The inserted page is found. -/
theorem lookup_insert_same (c : Cache) (inode offset physFrame : ℕ) :
    lookup (PageCache.insert c inode offset physFrame) inode offset = physFrame := by
  have hnew (idx : ℕ) :
      holds (setEntry c idx ⟨inode, offset, physFrame, true⟩) inode offset idx = true := by
    simp [holds, setEntry_same, Entry.isFor]
  rcases insert_cases c inode offset physFrame with
    ⟨idx, as, bs, hl, has, hidx, hins⟩ | ⟨hcrowd, hins⟩
  · have hskip : ∀ a ∈ as,
        holds (setEntry c idx ⟨inode, offset, physFrame, true⟩) inode offset a = false := by
      intro a ha
      have hne : a ≠ idx := by
        intro he
        have h := has idx (he ▸ ha)
        rw [h.1, h.2] at hidx
        simp at hidx
      rw [holds, setEntry_ne c _ hne, (has a ha).2, Bool.and_false]
    have hfind : (probes inode offset).find?
        (holds (setEntry c idx ⟨inode, offset, physFrame, true⟩) inode offset) = some idx :=
      List.find?_eq_some_iff_append.mpr ⟨hnew idx, as, bs, hl, fun a ha => by
        rw [hskip a ha]
        rfl⟩
    rw [hins, lookup_eq, hfind, Option.map_some, setEntry_same]
    rfl
  · rw [hins, lookup_eq, probes_cons, List.find?_cons_of_pos (hnew _), Option.map_some,
      setEntry_same]
    rfl

theorem not_isFor (h : ¬(i = inode ∧ o = offset)) :
    (⟨inode, offset, physFrame, true⟩ : Entry).isFor i o = false := by
  rw [Bool.eq_false_iff]
  intro hfor
  have he := isFor_iff.mp hfor
  exact h ⟨he.1.symm, he.2.symm⟩

/-- A page other than the inserted one is answered as before, unless its entry was evicted. -/
theorem lookup_insert_other (h : ¬(i = inode ∧ o = offset))
    (hev : ¬(Crowded c inode offset ∧ (c (hash inode offset)).isFor i o = true)) :
    lookup (PageCache.insert c inode offset physFrame) i o = lookup c i o := by
  rcases insert_cases c inode offset physFrame with
    ⟨idx, as, bs, hl, has, hidx, hins⟩ | ⟨hcrowd, hins⟩
  · rw [hins]
    apply lookup_setEntry_other _ (not_isFor h)
    rcases hidx with hfree | hfor
    · rw [holds, hfree, Bool.false_and]
    · have hother : (c idx).isFor i o = false := by
        rw [Bool.eq_false_iff]
        intro hboth
        have he := isFor_iff.mp hfor
        have he' := isFor_iff.mp hboth
        exact h ⟨he'.1.symm.trans he.1, he'.2.symm.trans he.2⟩
      rw [holds, hother, Bool.and_false]
  · rw [hins]
    apply lookup_setEntry_other _ (not_isFor h)
    have hother : (c (hash inode offset)).isFor i o = false :=
      Bool.eq_false_iff.mpr fun hfor => hev ⟨hcrowd, hfor⟩
    rw [holds, hother, Bool.and_false]

/-- The page whose entry was evicted. -/
theorem lookup_insert_evicted (h : ¬(i = inode ∧ o = offset)) (hcrowd : Crowded c inode offset) :
    lookup (PageCache.insert c inode offset physFrame) i o =
      if (c (hash inode offset)).isFor i o then (otherFrame c (hash inode offset) i o).getD 0
      else lookup c i o := by
  split_ifs with hfor
  · rcases insert_cases c inode offset physFrame with
      ⟨idx, as, bs, hl, has, hidx, hins⟩ | ⟨-, hins⟩
    · have hmem : idx ∈ probes inode offset := by simp [hl]
      have hother := hcrowd idx hmem
      rw [hother.1, hother.2] at hidx
      simp at hidx
    · rw [hins]
      exact lookup_setEntry_evicted (not_isFor h)
  · exact lookup_insert_other h fun hev => hfor hev.2

theorem lookup_invalidate (c : Cache) (inode i o : ℕ) :
    lookup (invalidate c inode) i o = if i = inode then 0 else lookup c i o := by
  split_ifs with hi
  · have hnone : holds (invalidate c inode) i o = fun _ => false := by
      ext1 j
      by_cases hj : ((c j).valid && (c j).inode == inode) = true
      · rw [holds, invalidate, if_pos hj, Bool.false_and]
      · rw [holds, invalidate, if_neg hj, Bool.eq_false_iff]
        intro hboth
        simp only [Bool.and_eq_true, isFor_iff] at hboth
        exact hj (by simp [hboth.1, hboth.2.1, hi])
    rw [lookup_eq, hnone, List.find?_eq_none.mpr (by simp)]
    rfl
  · have hsame (j : ℕ) (hj : holds c i o j = true) : invalidate c inode j = c j := by
      simp only [holds, Bool.and_eq_true, isFor_iff] at hj
      have hne : ¬((c j).valid && (c j).inode == inode) = true := by
        rw [hj.2.1]
        simp [hi]
      exact if_neg hne
    apply lookup_congr
    · intro j
      cases hj : holds c i o j with
      | true =>
        rw [holds, hsame j hj]
        exact hj
      | false =>
        unfold holds invalidate
        split_ifs
        · rfl
        · exact hj
    · exact fun j hj => by rw [hsame j hj]

theorem lookup_clear (c : Cache) (i o : ℕ) : lookup (clear c) i o = 0 := by
  have hnone : holds (clear c) i o = fun _ => false := rfl
  rw [lookup_eq, hnone, List.find?_eq_none.mpr (by simp)]
  rfl

end Lookups

namespace Tracked

/-- One call keeps the cache a lossy map exactly if an entry it evicts hides no older one. -/
theorem step_lossy_iff (t : Tracked) (call : Call) (h : t.Lossy) :
    (t.step call).Lossy ↔ Keeps t call := by
  cases call with
  | lookup inode offset => exact ⟨fun _ => trivial, fun _ => h⟩
  | invalidate inode =>
    constructor
    · exact fun _ => trivial
    · intro _ i o
      simp only [step, lookup_invalidate]
      split_ifs
      · exact .inl rfl
      · exact h i o
  | insert inode offset physFrame =>
    constructor
    · intro hl hcrowd frame hframe
      have hother : ¬((t.cache (hash inode offset)).inode = inode ∧
          (t.cache (hash inode offset)).offset = offset) := by
        intro he
        have hmem : hash inode offset ∈ probes inode offset := by
          rw [probes_cons]
          exact List.mem_cons_self
        have hfor := (hcrowd _ hmem).2
        rw [isFor_iff.mpr he] at hfor
        cases hfor
      have hv := hl (t.cache (hash inode offset)).inode (t.cache (hash inode offset)).offset
      simp only [step, if_neg hother] at hv
      rw [lookup_insert_evicted hother hcrowd, if_pos (isFor_iff.mpr ⟨rfl, rfl⟩), hframe] at hv
      exact hv
    · intro hk i o
      simp only [step]
      by_cases hsame : i = inode ∧ o = offset
      · rw [if_pos hsame, hsame.1, hsame.2, lookup_insert_same]
        exact .inr rfl
      rw [if_neg hsame]
      by_cases hev : Crowded t.cache inode offset ∧
          (t.cache (hash inode offset)).isFor i o = true
      · rw [lookup_insert_evicted hsame hev.1, if_pos hev.2]
        have hfor := isFor_iff.mp hev.2
        cases hframe : otherFrame t.cache (hash inode offset) i o with
        | none => exact .inl rfl
        | some frame =>
          have hkept := hk hev.1 frame (by rw [hfor.1, hfor.2]; exact hframe)
          rw [hfor.1, hfor.2] at hkept
          exact hkept
      · rw [lookup_insert_other hsame hev]
        exact h i o

theorem start_lossy (c : Cache) : (start c).Lossy := fun i o => .inl (lookup_clear c i o)

end Tracked

/-- In all states of a run of calls after `init`, whatever the entries were before, every lookup
answers zero or the latest frame, exactly if no insertion of the run evicts an entry that
hides an older one. -/
theorem lossy_iff (c : Cache) (calls : List Call) :
    Always Tracked.step Tracked.Lossy (Tracked.start c) calls ↔
      Meets Tracked.step Keeps (Tracked.start c) calls :=
  always_iff_meets Tracked.step_lossy_iff (Tracked.start_lossy c) calls

/-- A page cached behind an entry of another file, which is then invalidated, is cached a
second time in front; five pages later the first entry answers again. -/
theorem stale_frame : ∃ calls : List Call, ∃ inode offset,
    PageCache.lookup ((Tracked.start PageCache.init).run calls).cache inode offset ≠ 0 ∧
    PageCache.lookup ((Tracked.start PageCache.init).run calls).cache inode offset ≠
      ((Tracked.start PageCache.init).run calls).latest inode offset := by
  refine ⟨[.insert 256 0 0x9000, .insert 0 0 0x1000, .invalidate 256, .insert 0 0 0x2000,
    .insert 0 0x100000 0x3000, .insert 0 0x200000 0x4000, .insert 0 0x300000 0x5000], 0, 0, ?_⟩
  decide +kernel

end Vlsmc.CachedPages
