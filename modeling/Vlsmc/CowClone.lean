import Vlsmc.Paging

/-!
# Cloning an address space

What `cow_clone_directory` does to the tables of the parent, to the new
directory and to the reference counts.
-/

set_option autoImplicit false

namespace Vlsmc.CowClone
open Vlsmc.Words Vlsmc.SharedFrames Vlsmc.PhysicalMemory Vlsmc.Paging

/-- The table of user pages below entry `i` of directory `d`. -/
def tableAt (m : Machine) (d i : ℕ) : Option ℕ :=
  if i < 1023 ∧ present (m.mem d i) = true ∧ user (m.mem d i) = true then
    some (frameOf (m.mem d i))
  else none

/-- The table entry of user page `n`, when it is present. -/
def pteAt (m : Machine) (d n : ℕ) : Option ℕ :=
  (tableAt m d (n/1024)).bind fun t =>
    if present (m.mem t (n%1024)) then some (m.mem t (n%1024)) else none

theorem tableAt_some {m : Machine} {d i t : ℕ} (h : tableAt m d i = some t) :
    i < 1023 ∧ present (m.mem d i) = true ∧ user (m.mem d i) = true ∧
      frameOf (m.mem d i) = t := by
  unfold tableAt at h
  split_ifs at h with hc
  exact ⟨hc.1, hc.2.1, hc.2.2, Option.some.inj h⟩

theorem tableAt_of {m : Machine} {d i : ℕ} (hi : i < 1023) (hp : present (m.mem d i) = true)
    (hu : user (m.mem d i) = true) : tableAt m d i = some (frameOf (m.mem d i)) :=
  if_pos ⟨hi, hp, hu⟩

theorem tableAt_congr {m m' : Machine} {d i : ℕ} (h : m'.mem d i = m.mem d i) :
    tableAt m' d i = tableAt m d i := by
  unfold tableAt
  rw [h]

theorem pteAt_some {m : Machine} {d n w : ℕ} (h : pteAt m d n = some w) :
    ∃ t, tableAt m d (n/1024) = some t ∧ present w = true ∧ m.mem t (n%1024) = w := by
  unfold pteAt at h
  cases ht : tableAt m d (n/1024) with
  | none => simp [ht] at h
  | some t =>
    rw [ht, Option.bind_some] at h
    split_ifs at h with hp
    have hw := Option.some.inj h
    exact ⟨t, rfl, hw ▸ hp, hw⟩

theorem pteAt_table {m : Machine} {d n t : ℕ} (h : tableAt m d (n/1024) = some t) :
    pteAt m d n = if present (m.mem t (n%1024)) then some (m.mem t (n%1024)) else none := by
  rw [pteAt, h, Option.bind_some]

section Window

variable {m : Machine} (hrec : frameOf (m.mem m.cr3 1023) = m.cr3)
include hrec

theorem window_eq (n : ℕ) : m.window n = (frameOf (m.mem m.cr3 (n/1024)), n%1024) := by
  rw [Machine.window, hrec]

theorem pdePtr_eq {i : ℕ} (hi : i < 1024) : m.pdePtr i = (m.cr3, i) := by
  have h1 : (1023*1024+i)/1024 = 1023 := by omega
  have h2 : (1023*1024+i)%1024 = i := by omega
  rw [Machine.pdePtr, window_eq hrec, h1, h2, hrec]

theorem ptePtr_eq (v : ℕ) :
    m.ptePtr v = (frameOf (m.mem m.cr3 (v/4096/1024)), v/4096%1024) := window_eq hrec _

theorem ptePtr_virtOf (i : ℕ) {j : ℕ} (hj : j < 1024) :
    m.ptePtr (Machine.virtOf i j) = (frameOf (m.mem m.cr3 i), j) := by
  have h1 : Machine.virtOf i j/4096/1024 = i := by
    unfold Machine.virtOf
    omega
  have h2 : Machine.virtOf i j/4096%1024 = j := by
    unfold Machine.virtOf
    omega
  rw [ptePtr_eq hrec, h1, h2]

end Window

/-- The parent's entry after a fork. -/
def cloned (w : ℕ) : ℕ := if present w && writable w then entry (frameOf w) 0x205 else w

/-- The child's entry after a fork. -/
def inherited (w : ℕ) : ℕ := if present w then cloned w else 0

theorem frameOf_cloned (w : ℕ) : frameOf (cloned w) = frameOf w := by
  unfold cloned
  split_ifs
  · exact frameOf_entry _ (by decide)
  · rfl

theorem present_cloned (w : ℕ) : present (cloned w) = present w := by
  unfold cloned
  split_ifs with h
  · rw [present_entry _ (by decide)]
    simp only [Bool.and_eq_true] at h
    rw [h.1]
    decide
  · rfl

theorem present_inherited (w : ℕ) : present (inherited w) = present w := by
  unfold inherited
  split_ifs with h
  · exact present_cloned w
  · simp only [Bool.not_eq_true] at h
    rw [h]
    decide

theorem writable_cloned {w : ℕ} (h : present w = true) : writable (cloned w) = false := by
  unfold cloned
  split_ifs with hc
  · rw [writable_entry _ (by decide)]
    decide
  · simp only [h, Bool.true_and, Bool.not_eq_true] at hc
    exact hc

theorem user_cloned {w : ℕ} (h : user w = true) : user (cloned w) = true := by
  unfold cloned
  split_ifs
  · rw [user_entry _ (by decide)]
    decide
  · exact h

/-- What a process may do with the page stays the same. -/
theorem access_cloned {w : ℕ} (h : present w = true) :
    (writable (cloned w) || cow (cloned w)) = (writable w || cow w) := by
  unfold cloned
  cases hw : writable w with
  | true =>
    rw [h, if_pos (by rfl), cow_entry _ (by decide)]
    simp only [Bool.true_or, Bool.or_eq_true]
    exact Or.inr (by decide)
  | false => simp [hw]

theorem write_mem (m : Machine) (p : ℕ × ℕ) (w f k : ℕ) :
    (m.write p w).mem f k = if f = p.1 ∧ k = p.2 then w else m.mem f k := rfl

theorem write_cr3 (m : Machine) (p : ℕ × ℕ) (w : ℕ) : (m.write p w).cr3 = m.cr3 := rfl

theorem write_kernelDirectory (m : Machine) (p : ℕ × ℕ) (w : ℕ) :
    (m.write p w).kernelDirectory = m.kernelDirectory := rfl

theorem write_pmm (m : Machine) (p : ℕ × ℕ) (w : ℕ) : (m.write p w).pmm = m.pmm := rfl

section Tables

variable {m : Machine} {i s t : ℕ}

/-- One step of the inner loop, while the entry is still the one of the parent. -/
theorem clonePage_mem (hrec : frameOf (m.mem m.cr3 1023) = m.cr3)
    (hs : frameOf (m.mem m.cr3 i) = s) (htd : t ≠ m.cr3) {j : ℕ} (hj : j < 1024) (hts : t ≠ s)
    (f k : ℕ) :
    (m.clonePage i t j).mem f k = if f = t ∧ k = j then inherited (m.mem s j)
      else if f = s ∧ k = j then cloned (m.mem s j) else m.mem f k := by
  have hptr : m.ptePtr (Machine.virtOf i j) = (s, j) := by rw [ptePtr_virtOf hrec i hj, hs]
  have hread : m.read (m.ptePtr (Machine.virtOf i j)) = m.mem s j := by rw [hptr]; rfl
  have hptr' : ∀ w, (m.write (t, j) w).ptePtr (Machine.virtOf i j) = (s, j) := by
    intro w
    have hd : ∀ k, (m.write (t, j) w).mem m.cr3 k = m.mem m.cr3 k := fun k =>
      if_neg fun h => htd h.1.symm
    have hrec' : frameOf ((m.write (t, j) w).mem (m.write (t, j) w).cr3 1023) =
        (m.write (t, j) w).cr3 := (congrArg frameOf (hd 1023)).trans hrec
    rw [ptePtr_virtOf hrec' i hj]
    exact congrArg (fun x => (x, j)) ((congrArg frameOf (hd i)).trans hs)
  unfold Machine.clonePage
  simp only [hread, hptr']
  cases hp : present (m.mem s j) with
  | false =>
    simp only [Bool.not_false, if_true, write_mem, inherited, cloned, hp, Bool.false_and]
    by_cases h1 : f = t ∧ k = j
    · simp [h1]
    · rw [if_neg h1, if_neg h1]
      by_cases h2 : f = s ∧ k = j
      · rw [if_pos h2, h2.1, h2.2]
        rfl
      · rw [if_neg h2]
  | true =>
    cases hw : writable (m.mem s j) with
    | true =>
      simp only [Bool.not_true, Bool.false_eq_true, if_false, if_true, Machine.incRef, write_mem,
        inherited, cloned, hp, hw, Bool.and_self]
      by_cases h1 : f = t ∧ k = j
      · rw [if_pos h1, if_neg (fun h => hts (h1.1.symm.trans h.1)), if_pos h1]
      · rw [if_neg h1, if_neg h1]
    | false =>
      simp only [Bool.not_true, Bool.false_eq_true, if_false, if_true, Machine.incRef, write_mem,
        inherited, cloned, hp, hw, Bool.and_false]
      by_cases h1 : f = t ∧ k = j
      · rw [if_pos h1, if_pos h1]
      · rw [if_neg h1, if_neg h1]
        by_cases h2 : f = s ∧ k = j
        · rw [if_pos h2, h2.1, h2.2]
        · rw [if_neg h2]

theorem clonePage_pmm (hrec : frameOf (m.mem m.cr3 1023) = m.cr3)
    (hs : frameOf (m.mem m.cr3 i) = s) {j : ℕ} (hj : j < 1024) :
    (m.clonePage i t j).cr3 = m.cr3 ∧ (m.clonePage i t j).kernelDirectory = m.kernelDirectory ∧
    (m.clonePage i t j).pmm =
      if present (m.mem s j) then m.pmm.incRef (frameOf (m.mem s j)) else m.pmm := by
  have hread : m.read (m.ptePtr (Machine.virtOf i j)) = m.mem s j := by
    rw [ptePtr_virtOf hrec i hj, hs]
    rfl
  unfold Machine.clonePage
  simp only [hread]
  cases present (m.mem s j) with
  | false => exact ⟨rfl, rfl, rfl⟩
  | true => cases writable (m.mem s j) <;> exact ⟨rfl, rfl, rfl⟩

/-- The counts after the first `n` entries of table `s`. -/
def countShared (p : Pmm) (words : ℕ → ℕ) (n : ℕ) : Pmm :=
  (List.range n).foldl
    (fun p j => if present (words j) then p.incRef (frameOf (words j)) else p) p

theorem countShared_succ (p : Pmm) (words : ℕ → ℕ) (n : ℕ) :
    countShared p words (n+1) = if present (words n) then
      (countShared p words n).incRef (frameOf (words n)) else countShared p words n := by
  rw [countShared, List.range_succ, List.foldl_append]
  rfl

theorem countShared_maxFrames (p : Pmm) (words : ℕ → ℕ) (n : ℕ) :
    (countShared p words n).maxFrames = p.maxFrames := by
  induction n with
  | zero => rfl
  | succ n ih =>
    rw [countShared_succ]
    split_ifs
    · rw [incRef_maxFrames, ih]
    · exact ih

/-- The memory after the first `n` entries of the inner loop. -/
theorem clonePages_spec (hrec : frameOf (m.mem m.cr3 1023) = m.cr3)
    (hs : frameOf (m.mem m.cr3 i) = s) (htd : t ≠ m.cr3) (hsd : s ≠ m.cr3) (hts : t ≠ s) :
    ∀ n ≤ 1024, ∀ m', (List.range n).foldl (fun m j => m.clonePage i t j) m = m' →
      m'.cr3 = m.cr3 ∧ m'.kernelDirectory = m.kernelDirectory ∧
      m'.pmm = countShared m.pmm (m.mem s) n ∧
      ∀ f k, m'.mem f k = if f = t ∧ k < n then inherited (m.mem s k)
        else if f = s ∧ k < n then cloned (m.mem s k) else m.mem f k := by
  intro n
  induction n with
  | zero =>
    rintro - m' rfl
    exact ⟨rfl, rfl, rfl, fun f k => by simp⟩
  | succ n ih =>
    intro hn m'' hm''
    obtain ⟨hc, hk, hp, hm⟩ := ih (by omega) _ rfl
    rw [List.range_succ, List.foldl_append, List.foldl_cons, List.foldl_nil] at hm''
    subst hm''
    generalize (List.range n).foldl (fun m j => m.clonePage i t j) m = m' at hc hk hp hm
    have hdir : ∀ k, m'.mem m'.cr3 k = m.mem m.cr3 k := by
      intro k
      rw [hc, hm, if_neg fun h => htd h.1.symm, if_neg fun h => hsd h.1.symm]
    have hrec' : frameOf (m'.mem m'.cr3 1023) = m'.cr3 := by rw [hdir, hrec, hc]
    have hs' : frameOf (m'.mem m'.cr3 i) = s := by rw [hdir, hs]
    -- entry `n` of the table has not been touched yet
    have hsrc : m'.mem s n = m.mem s n := by
      rw [hm, if_neg (fun h => hts h.1.symm), if_neg (by simp)]
    have hmem := clonePage_mem hrec' hs' (by rwa [hc]) (show n < 1024 by omega) hts
    obtain ⟨hc', hk', hp'⟩ :=
      clonePage_pmm (t := t) hrec' hs' (show n < 1024 by omega)
    refine ⟨hc'.trans hc, hk'.trans hk, ?_, fun f k => ?_⟩
    · rw [hp', hsrc, hp, countShared_succ]
    · rw [hmem, hsrc, hm]
      by_cases hkn : k = n
      · subst hkn
        simp
      · have h1 : k < n+1 ↔ k < n := by omega
        simp only [hkn, and_false, if_false, h1]

theorem cloneTable_spec (hrec : frameOf (m.mem m.cr3 1023) = m.cr3)
    (hs : frameOf (m.mem m.cr3 i) = s) (htd : t ≠ m.cr3) (hsd : s ≠ m.cr3) (hts : t ≠ s) :
    (m.cloneTable i t).cr3 = m.cr3 ∧ (m.cloneTable i t).kernelDirectory = m.kernelDirectory ∧
    (m.cloneTable i t).pmm = countShared m.pmm (m.mem s) 1024 ∧
    ∀ f k, (m.cloneTable i t).mem f k = if f = t ∧ k < 1024 then inherited (m.mem s k)
      else if f = s ∧ k < 1024 then cloned (m.mem s k) else m.mem f k := by
  apply clonePages_spec hrec hs htd hsd hts 1024 le_rfl
  rw [Machine.cloneTable]

end Tables

/-- The mappings while the child `q` has the pages of `p` below `n`. -/
def sharedBelow (M : ℕ × ℕ → Option ℕ) (p q n : ℕ) : ℕ × ℕ → Option ℕ := fun x =>
  if x.1 = q then (if x.2 < n then M (p, x.2) else none) else M x

theorem sharedBelow_succ (M : ℕ × ℕ → Option ℕ) (p q n : ℕ) :
    sharedBelow M p q (n+1) = setSlot (sharedBelow M p q n) (q, n) (M (p, n)) := by
  funext x
  obtain ⟨a, k⟩ := x
  unfold sharedBelow setSlot
  by_cases ha : a = q
  · by_cases hk : k = n
    · simp [ha, hk]
    · have h1 : k < n+1 ↔ k < n := by omega
      simp [ha, hk, h1]
  · simp [ha]

/-- Sharing the pages of one table keeps the ledger. -/
theorem countShared_ledger {M : ℕ × ℕ → Option ℕ} {own : ℕ → Prop} {p q base : ℕ} {pmm : Pmm}
    {words : ℕ → ℕ} (hpq : p ≠ q) (hq : q < 32)
    (hwords : ∀ j < 1024, M (p, base+j) =
      if present (words j) then some (frameOf (words j)) else none)
    (honce : ∀ n n' f, M (p, n) = some f → M (p, n') = some f → n = n')
    (h : Ledger pmm (sharedBelow M p q base) own Prod.fst) :
    ∀ n ≤ 1024, Ledger (countShared pmm words n) (sharedBelow M p q (base+n)) own Prod.fst := by
  intro n
  induction n with
  | zero => exact fun _ => h
  | succ n ih =>
    intro hn
    have hl := ih (by omega)
    have hslot : sharedBelow M p q (base+n) (q, base+n) = none := by simp [sharedBelow]
    rw [countShared_succ, ← Nat.add_assoc, sharedBelow_succ, hwords n (by omega)]
    by_cases hp : present (words n) = true
    · rw [if_pos hp, if_pos hp]
      have hM : M (p, base+n) = some (frameOf (words n)) := by rw [hwords n (by omega), if_pos hp]
      apply ledger_share hl (x := (p, base+n)) _ hslot hq
      · rintro ⟨a, k⟩ hz hak
        have ha : a = q := hak
        rw [sharedBelow, if_pos ha] at hz
        split_ifs at hz with hk
        have := honce _ _ _ hz hM
        simp only at hk this
        omega
      · rw [sharedBelow, if_neg hpq]
        exact hM
    · rw [if_neg hp, if_neg hp]
      have hsame : setSlot (sharedBelow M p q (base+n)) (q, base+n) none =
          sharedBelow M p q (base+n) := by
        funext x
        unfold setSlot
        split_ifs with hx
        · rw [hx, hslot]
        · rfl
      rwa [hsame]

/-- The address space of process `p` is loaded in `m₀`, its pages are those that
`M` gives it, and frame `nd` is free for the directory of process `q`. -/
structure Forkable (m₀ : Machine) (M : ℕ × ℕ → Option ℕ) (own : ℕ → Prop) (p q nd : ℕ) :
    Prop where
  recursive : m₀.mem m₀.cr3 1023 = entry m₀.cr3 3
  dir : own m₀.cr3
  tables : ∀ i s, tableAt m₀ m₀.cr3 i = some s → own s ∧ s ≠ m₀.cr3
  distinct : ∀ i j s, tableAt m₀ m₀.cr3 i = some s → tableAt m₀ m₀.cr3 j = some s → i = j
  pages : ∀ n, M (p, n) = (pteAt m₀ m₀.cr3 n).map frameOf
  other : p ≠ q
  pid : q < 32
  unused : ∀ n, M (q, n) = none
  apart : ∀ x f, M x = some f → ¬ own f
  once : ∀ n n' f, M (p, n) = some f → M (p, n') = some f → n = n'
  freshDir : ¬ own nd ∧ ∀ x, M x ≠ some nd

/-- The loop over the directory, before entry `i`. -/
structure Cloning (m₀ : Machine) (M : ℕ × ℕ → Option ℕ) (own : ℕ → Prop) (p q nd i : ℕ)
    (m : Machine) : Prop where
  cr3 : m.cr3 = m₀.cr3
  kernelDirectory : m.kernelDirectory = m₀.kernelDirectory
  maxFrames : m.pmm.maxFrames = m₀.pmm.maxFrames
  kept : ∀ f, (own f ∨ ∃ x, M x = some f) → (∀ k < i, tableAt m₀ m₀.cr3 k ≠ some f) →
    m.mem f = m₀.mem f
  parent : ∀ k < i, ∀ s, tableAt m₀ m₀.cr3 k = some s → ∀ j,
    m.mem s j = if j < 1024 then cloned (m₀.mem s j) else m₀.mem s j
  copied : ∀ k < i, k ≠ 1023 → tableAt m₀ m₀.cr3 k = none →
    m.mem nd k = if present (m₀.mem m₀.cr3 k) then m₀.mem m₀.cr3 k else 0
  made : ∀ k < i, ∀ s, tableAt m₀ m₀.cr3 k = some s →
    ∃ t, m.mem nd k = entry t 7 ∧ ∀ j < 1024, m.mem t j = inherited (m₀.mem s j)
  pending : ∀ k < 1024, (i ≤ k ∨ k = 1023) → m.mem nd k = 0
  fresh : ∀ k t, tableAt m nd k = some t → ¬ own t ∧ t ≠ nd ∧ (∀ x, M x ≠ some t) ∧
    t < m₀.pmm.maxFrames
  distinct : ∀ k k' t, tableAt m nd k = some t → tableAt m nd k' = some t → k = k'
  ledger : Ledger m.pmm (sharedBelow M p q (1024*i))
    (fun t => own t ∨ t = nd ∨ ∃ k, tableAt m nd k = some t) Prod.fst

section Loop

variable {m₀ m : Machine} {M : ℕ × ℕ → Option ℕ} {own : ℕ → Prop} {p q nd i : ℕ}

theorem cloning_dir (hf : Forkable m₀ M own p q nd) (h : Cloning m₀ M own p q nd i m) :
    m.mem m.cr3 = m₀.mem m₀.cr3 := by
  rw [h.cr3]
  exact h.kept _ (Or.inl hf.dir) fun k _ hk => (hf.tables k _ hk).2 rfl

theorem cloning_pde (hf : Forkable m₀ M own p q nd) (h : Cloning m₀ M own p q nd i m)
    (hi : i < 1024) : m.read (m.pdePtr i) = m₀.mem m₀.cr3 i := by
  have hrec : frameOf (m.mem m.cr3 1023) = m.cr3 := by
    rw [cloning_dir hf h, hf.recursive, frameOf_entry _ (by decide), h.cr3]
  rw [pdePtr_eq hrec hi, Machine.read, cloning_dir hf h]

/-- No user pages lie below an entry without a user table. -/
theorem sharedBelow_skip (hf : Forkable m₀ M own p q nd) (ht : tableAt m₀ m₀.cr3 i = none) :
    sharedBelow M p q (1024*(i+1)) = sharedBelow M p q (1024*i) := by
  funext x
  unfold sharedBelow
  split_ifs with hx h1 h2 h2
  · rfl
  · have hdiv : x.2/1024 = i := by omega
    rw [hf.pages, pteAt, hdiv, ht]
    rfl
  · omega
  · rfl
  · rfl

/-- An entry that is not a user table is copied or left zero. -/
theorem cloning_skip (hf : Forkable m₀ M own p q nd) (h : Cloning m₀ M own p q nd i m)
    (hi : i < 1024) (ht : tableAt m₀ m₀.cr3 i = none) {m' : Machine}
    (hcr3 : m'.cr3 = m.cr3) (hkd : m'.kernelDirectory = m.kernelDirectory) (hpmm : m'.pmm = m.pmm)
    (hmem : ∀ f k, (f ≠ nd ∨ k ≠ i) → m'.mem f k = m.mem f k)
    (hnew : i ≠ 1023 → m'.mem nd i =
      if present (m₀.mem m₀.cr3 i) then m₀.mem m₀.cr3 i else 0)
    (hrec : i = 1023 → m'.mem nd i = 0) :
    Cloning m₀ M own p q nd (i+1) m' := by
  have hnone : tableAt m' nd i = none := by
    unfold tableAt
    rw [if_neg]
    rintro ⟨hlt, hp, hu⟩
    rw [hnew (by omega)] at hp hu
    split_ifs at hp hu with hpres
    · rw [tableAt_of hlt hpres hu] at ht
      exact absurd ht (by simp)
    · exact absurd hp (by decide)
  have htab : ∀ k, tableAt m' nd k = tableAt m nd k := by
    intro k
    by_cases hk : k = i
    · rw [hk, hnone]
      unfold tableAt
      rw [if_neg]
      rintro ⟨-, hp, -⟩
      rw [h.pending i hi (Or.inl le_rfl)] at hp
      exact absurd hp (by decide)
    · exact tableAt_congr (hmem nd k (Or.inr hk))
  have hne : ∀ f, (own f ∨ ∃ x, M x = some f) → f ≠ nd := by
    rintro f (ho | ⟨x, hx⟩) rfl
    · exact hf.freshDir.1 ho
    · exact hf.freshDir.2 x hx
  have hlt : ∀ k, k < i+1 → k ≠ i → k < i := by omega
  refine ⟨hcr3.trans h.cr3, hkd.trans h.kernelDirectory, by rw [hpmm, h.maxFrames], ?_, ?_, ?_, ?_,
    ?_, ?_, ?_, ?_⟩
  · intro f hown hk
    funext k
    rw [hmem f k (Or.inl (hne f hown)), h.kept f hown fun k hki => hk k (by omega)]
  · intro k hk s hs j
    have hki : k ≠ i := fun he => by rw [he, ht] at hs; exact absurd hs (by simp)
    rw [hmem s j (Or.inl (hne s (Or.inl (hf.tables k s hs).1)))]
    exact h.parent k (hlt k hk hki) s hs j
  · intro k hk hk3 hk0
    by_cases hki : k = i
    · subst hki
      exact hnew hk3
    · rw [hmem nd k (Or.inr hki)]
      exact h.copied k (hlt k hk hki) hk3 hk0
  · intro k hk s hs
    have hki : k ≠ i := fun he => by rw [he, ht] at hs; exact absurd hs (by simp)
    obtain ⟨t, h1, h2⟩ := h.made k (hlt k hk hki) s hs
    refine ⟨t, by rw [hmem nd k (Or.inr hki), h1], fun j hj => ?_⟩
    have hk3 := (tableAt_some hs).1
    have htt : tableAt m nd k = some t := by
      rw [tableAt_of hk3 (by rw [h1, present_entry _ (by decide)]; decide)
        (by rw [h1, user_entry _ (by decide)]; decide), h1, frameOf_entry _ (by decide)]
    rw [hmem t j (Or.inl (h.fresh k t htt).2.1)]
    exact h2 j hj
  · intro k hk hik
    by_cases hki : k = i
    · subst hki
      exact hrec (by omega)
    · rw [hmem nd k (Or.inr hki)]
      exact h.pending k hk (by omega)
  · intro k t hk
    exact h.fresh k t (htab k ▸ hk)
  · intro k k' t hk hk'
    exact h.distinct k k' t (htab k ▸ hk) (htab k' ▸ hk')
  · rw [hpmm, sharedBelow_skip hf ht]
    exact ledger_congr h.ledger (fun _ => rfl) fun t => by simp only [htab]

theorem tableAt_made {m : Machine} {nd k t : ℕ} (hk : k < 1023) (h : m.mem nd k = entry t 7) :
    tableAt m nd k = some t := by
  rw [tableAt_of hk (by rw [h, present_entry _ (by decide)]; decide)
    (by rw [h, user_entry _ (by decide)]; decide), h, frameOf_entry _ (by decide)]

/-- An entry of user pages gets a table of its own, and the pages are shared. -/
theorem cloning_table (hf : Forkable m₀ M own p q nd) (h : Cloning m₀ M own p q nd i m) {s t : ℕ}
    (hs : tableAt m₀ m₀.cr3 i = some s) (ht : m.pmm.allocFrame.1 = t) (ht0 : t ≠ 0)
    {m3 : Machine} (hcr3 : m3.cr3 = m.cr3) (hkd : m3.kernelDirectory = m.kernelDirectory)
    (hp : m3.pmm = countShared m.pmm.allocFrame.2 (m.mem s) 1024)
    (hfinal : ∀ f k, m3.mem f k = if f = nd ∧ k = i then entry t 7
      else if f = t ∧ k < 1024 then inherited (m.mem s k)
      else if f = s ∧ k < 1024 then cloned (m.mem s k) else m.mem f k) :
    Cloning m₀ M own p q nd (i+1) m3 := by
  obtain ⟨hi, hpres, huser, hframe⟩ := tableAt_some hs
  rw [← ht] at ht0
  obtain ⟨hledger, hheld, hown, htmax, hmax, -⟩ := ledger_alloc_own h.ledger ht0
  rw [ht] at hledger hheld hown htmax
  generalize m.pmm.allocFrame.2 = pmm1 at hp hledger hmax
  simp only [not_or] at hown
  obtain ⟨hsown, hsd⟩ := hf.tables i s hs
  have htown : ¬ own t := hown.1
  have htnd : t ≠ nd := hown.2.1
  have hts : t ≠ s := fun he => htown (he ▸ hsown)
  have htM : ∀ x, M x ≠ some t := by
    intro x hx
    by_cases hq : x.1 = q
    · have hM : M (q, x.2) = some t := by rw [← hq]; exact hx
      rw [hf.unused] at hM
      exact absurd hM (by simp)
    · apply hheld x
      rw [sharedBelow, if_neg hq]
      exact hx
  -- the table of the parent is untouched before this step
  have hs0 : m.mem s = m₀.mem s := by
    apply h.kept s (Or.inl hsown)
    intro k hk hks
    have := hf.distinct k i s hks hs
    omega
  have hsnd : s ≠ nd := fun he => hf.freshDir.1 (he ▸ hsown)
  rw [hs0] at hp hfinal
  have hnd : ∀ k, k ≠ i → m3.mem nd k = m.mem nd k := by
    intro k hki
    rw [hfinal, if_neg (fun hh => hki hh.2), if_neg (fun hh => htnd hh.1.symm),
      if_neg (fun hh => hsnd hh.1.symm)]
  have hother : ∀ f, f ≠ nd → f ≠ t → f ≠ s → m3.mem f = m.mem f := by
    intro f h1 h2 h3
    funext k
    rw [hfinal, if_neg (fun hh => h1 hh.1), if_neg (fun hh => h2 hh.1),
      if_neg (fun hh => h3 hh.1)]
  have hnew : tableAt m3 nd i = some t := tableAt_made hi (by rw [hfinal, if_pos ⟨rfl, rfl⟩])
  have htab : ∀ k, k ≠ i → tableAt m3 nd k = tableAt m nd k := fun k hk => tableAt_congr (hnd k hk)
  have hne : ∀ f, (own f ∨ ∃ x, M x = some f) → f ≠ nd ∧ f ≠ t := by
    rintro f (ho | ⟨x, hx⟩)
    · exact ⟨fun he => hf.freshDir.1 (he ▸ ho), fun he => htown (he ▸ ho)⟩
    · exact ⟨fun he => hf.freshDir.2 x (he ▸ hx), fun he => htM x (he ▸ hx)⟩
  have hlt : ∀ k, k < i+1 → k ≠ i → k < i := by omega
  refine ⟨by rw [hcr3, h.cr3], by rw [hkd, h.kernelDirectory], ?_, ?_, ?_, ?_, ?_, ?_, ?_, ?_, ?_⟩
  · rw [hp, countShared_maxFrames, hmax, h.maxFrames]
  · intro f hfown hfk
    have hfs : f ≠ s := fun he => hfk i (by omega) (he ▸ hs)
    rw [hother f (hne f hfown).1 (hne f hfown).2 hfs]
    exact h.kept f hfown fun k hk => hfk k (by omega)
  · intro k hk s' hs' j
    by_cases hki : k = i
    · have hss : s' = s := by
        rw [hki, hs] at hs'
        exact (Option.some.inj hs').symm
      rw [hss, hfinal, if_neg (fun hh => hsnd hh.1), if_neg (fun hh => hts hh.1.symm)]
      by_cases hj : j < 1024
      · rw [if_pos ⟨rfl, hj⟩, if_pos hj]
      · rw [if_neg (fun hh => hj hh.2), if_neg hj, hs0]
    · have hfs : s' ≠ s := fun he => hki (hf.distinct k i s (he ▸ hs') hs)
      have hown' := hne s' (Or.inl (hf.tables k s' hs').1)
      rw [hother s' hown'.1 hown'.2 hfs]
      exact h.parent k (hlt k hk hki) s' hs' j
  · intro k hk hk3 hk0
    have hki : k ≠ i := fun he => by rw [he, hs] at hk0; exact absurd hk0 (by simp)
    rw [hnd k hki]
    exact h.copied k (hlt k hk hki) hk3 hk0
  · intro k hk s' hs'
    by_cases hki : k = i
    · have hss : s' = s := by
        rw [hki, hs] at hs'
        exact (Option.some.inj hs').symm
      refine ⟨t, by rw [hki, hfinal, if_pos ⟨rfl, rfl⟩], fun j hj => ?_⟩
      rw [hss, hfinal, if_neg (fun hh => htnd hh.1), if_pos ⟨rfl, hj⟩]
    · obtain ⟨t', h1, h2⟩ := h.made k (hlt k hk hki) s' hs'
      have htab' := tableAt_made (tableAt_some hs').1 h1
      have hfr := h.fresh k t' htab'
      have ht't : t' ≠ t := fun he => hown.2.2 ⟨k, he ▸ htab'⟩
      refine ⟨t', by rw [hnd k hki, h1], fun j hj => ?_⟩
      rw [hother t' hfr.2.1 ht't (fun he => hfr.1 (he ▸ hsown))]
      exact h2 j hj
  · intro k hk hik
    rw [hnd k (by omega)]
    exact h.pending k hk (by omega)
  · intro k t' hk
    by_cases hki : k = i
    · rw [hki, hnew] at hk
      rw [← Option.some.inj hk]
      exact ⟨htown, htnd, htM, by rw [← h.maxFrames]; exact htmax⟩
    · exact h.fresh k t' (htab k hki ▸ hk)
  · intro k k' t' hk hk'
    have hold : ∀ k, k ≠ i → tableAt m3 nd k = some t' → t' ≠ t := fun k hki hk he =>
      hown.2.2 ⟨k, by rw [← htab k hki, hk, he]⟩
    by_cases hki : k = i
    · by_cases hki' : k' = i
      · rw [hki, hki']
      · rw [hki, hnew] at hk
        exact absurd (Option.some.inj hk).symm (hold k' hki' hk')
    · by_cases hki' : k' = i
      · rw [hki', hnew] at hk'
        exact absurd (Option.some.inj hk').symm (hold k hki hk)
      · exact h.distinct k k' t' (htab k hki ▸ hk) (htab k' hki' ▸ hk')
  · have hwords : ∀ j < 1024, M (p, 1024*i+j) =
        if present (m₀.mem s j) then some (frameOf (m₀.mem s j)) else none := by
      intro j hj
      have h1 : (1024*i+j)/1024 = i := by omega
      have h2 : (1024*i+j)%1024 = j := by omega
      rw [hf.pages, pteAt, h1, h2, hs, Option.bind_some]
      split_ifs <;> rfl
    have hl := countShared_ledger hf.other hf.pid hwords hf.once hledger 1024 le_rfl
    rw [hp, Nat.mul_succ]
    apply ledger_congr hl (fun _ => rfl)
    intro t'
    constructor
    · rintro (ho | ho | ⟨k, hk⟩)
      · exact Or.inl (Or.inl ho)
      · exact Or.inl (Or.inr (Or.inl ho))
      · by_cases hki : k = i
        · rw [hki, hnew] at hk
          exact Or.inr (Option.some.inj hk).symm
        · exact Or.inl (Or.inr (Or.inr ⟨k, htab k hki ▸ hk⟩))
    · rintro ((ho | ho | ⟨k, hk⟩) | ho)
      · exact Or.inl ho
      · exact Or.inr (Or.inl ho)
      · have hki : k ≠ i := by
          rintro rfl
          have := (tableAt_some hk).2.1
          rw [h.pending k (by omega) (Or.inl le_rfl)] at this
          exact absurd this (by decide)
        exact Or.inr (Or.inr ⟨k, (htab k hki).trans hk⟩)
      · exact Or.inr (Or.inr ⟨i, by rw [hnew, ho]⟩)

/-- What the code does to the memory for an entry of user pages. -/
theorem cloneTable_alloc (hf : Forkable m₀ M own p q nd) (h : Cloning m₀ M own p q nd i m) {s : ℕ}
    (hs : tableAt m₀ m₀.cr3 i = some s) (ht0 : m.allocFrame.1 ≠ 0) {m3 : Machine}
    (hm3 : (m.allocFrame.2.cloneTable i m.allocFrame.1).write (nd, i) (entry m.allocFrame.1 7) = m3) :
    m3.cr3 = m.cr3 ∧ m3.kernelDirectory = m.kernelDirectory ∧
    m3.pmm = countShared m.pmm.allocFrame.2 (m.mem s) 1024 ∧
    ∀ f k, m3.mem f k = if f = nd ∧ k = i then entry m.allocFrame.1 7
      else if f = m.allocFrame.1 ∧ k < 1024 then inherited (m.mem s k)
      else if f = s ∧ k < 1024 then cloned (m.mem s k) else m.mem f k := by
  have hown := (ledger_alloc_own h.ledger ht0).2.2.1
  rw [← Machine.allocFrame_fst] at hown
  have hmem1 := Machine.allocFrame_mem m
  have hcr1 := Machine.allocFrame_cr3 m
  have hpmm1 := Machine.allocFrame_pmm m
  have hkd1 := Machine.allocFrame_kernelDirectory m
  generalize m.allocFrame = a at *
  obtain ⟨t, m1⟩ := a
  simp only [not_or] at *
  obtain ⟨hsown, hsd⟩ := hf.tables i s hs
  have hdir := cloning_dir hf h
  have hrec : frameOf (m1.mem m1.cr3 1023) = m1.cr3 := by
    rw [hmem1, hcr1, hdir, hf.recursive, frameOf_entry _ (by decide), h.cr3]
  have hsrc : frameOf (m1.mem m1.cr3 i) = s := by
    rw [hmem1, hcr1, hdir, (tableAt_some hs).2.2.2]
  have htd : t ≠ m1.cr3 := by
    rw [hcr1, h.cr3]
    exact fun he => hown.1 (he ▸ hf.dir)
  have hsd' : s ≠ m1.cr3 := by rwa [hcr1, h.cr3]
  obtain ⟨hc, hk, hp, hm⟩ := cloneTable_spec hrec hsrc htd hsd' fun he => hown.1 (he ▸ hsown)
  rw [hmem1] at hm hp
  rw [hpmm1] at hp
  subst hm3
  rw [write_cr3, write_kernelDirectory, write_pmm]
  refine ⟨hc.trans hcr1, hk.trans hkd1, hp, fun f k => ?_⟩
  rw [write_mem, hm]

/-- A successful run of the loop over the directory. -/
theorem cloneEntries_spec (hf : Forkable m₀ M own p q nd) :
    ∀ c i m, i+c = 1024 → Cloning m₀ M own p q nd i m →
      (Machine.cloneEntries nd (List.range' i c) m).1 = true →
      Cloning m₀ M own p q nd 1024 (Machine.cloneEntries nd (List.range' i c) m).2 := by
  intro c
  induction c with
  | zero =>
    intro i m hic h _
    have : i = 1024 := by omega
    exact this ▸ h
  | succ c ih =>
    intro i m hic h hok
    rw [List.range'_succ] at hok ⊢
    simp only [Machine.cloneEntries, cloning_pde hf h (show i < 1024 by omega)] at hok ⊢
    have hnoTable : (i < 1023 → present (m₀.mem m₀.cr3 i) = true →
        user (m₀.mem m₀.cr3 i) = true → False) → tableAt m₀ m₀.cr3 i = none := fun hno =>
      if_neg fun hc => hno hc.1 hc.2.1 hc.2.2
    by_cases h3 : i = 1023
    · rw [if_pos h3] at hok ⊢
      refine ih (i+1) m (by omega) (cloning_skip hf h (by omega) (hnoTable (by omega)) rfl rfl rfl
        (fun _ _ _ => rfl) (fun hne => absurd h3 hne) fun _ => ?_) hok
      exact h.pending i (by omega) (Or.inl le_rfl)
    · rw [if_neg h3] at hok ⊢
      cases hp : present (m₀.mem m₀.cr3 i) with
      | false =>
        simp only [hp, Bool.not_false, if_true] at hok ⊢
        refine ih (i+1) m (by omega) (cloning_skip hf h (by omega)
          (hnoTable fun _ hp' => by simp [hp] at hp') rfl rfl rfl
          (fun _ _ _ => rfl) (fun _ => ?_) fun he => absurd he h3) hok
        rw [hp, h.pending i (by omega) (Or.inl le_rfl)]
        rfl
      | true =>
        cases hu : user (m₀.mem m₀.cr3 i) with
        | false =>
          simp only [hp, hu, Bool.not_false, Bool.not_true, Bool.false_eq_true, if_false,
            if_true] at hok ⊢
          refine ih (i+1) _ (by omega) (cloning_skip hf h (by omega)
            (hnoTable fun _ _ hu' => by simp [hu] at hu') rfl rfl rfl (fun f k hfk => ?_)
            (fun _ => ?_) fun he => absurd he h3) hok
          · exact if_neg fun hh => hfk.elim (fun h1 => h1 hh.1) fun h2 => h2 hh.2
          · rw [hp]
            exact if_pos ⟨rfl, rfl⟩
        | true =>
          simp only [hp, hu, Bool.not_true, Bool.false_eq_true, if_false] at hok ⊢
          by_cases h0 : m.allocFrame.1 = 0
          · rw [if_pos h0] at hok
            exact absurd hok (by simp)
          · rw [if_neg h0] at hok ⊢
            have hs := tableAt_of (by omega) hp hu
            obtain ⟨hc, hk, hpm, hm⟩ := cloneTable_alloc hf h hs h0 rfl
            exact ih (i+1) _ (by omega) (cloning_table hf h hs rfl h0 hc hk hpm hm) hok

end Loop

end Vlsmc.CowClone
