import Vlsmc.FrameSupply
import Vlsmc.KernelMappings
import Vlsmc.MmapPlacement

/-!
# Anonymous mappings and missing frames

`sys_mmap` maps and clears the pages of an anonymous mapping one after the other. When no frame
is left for a page it unmaps those before, also where it had mapped over pages of the caller.
When no frame is left for a page table, `map_page` does nothing, and the store that clears the
page stops the kernel.
-/

set_option autoImplicit false

namespace Vlsmc.MmapRollback
open Vlsmc.Words Vlsmc.PhysicalMemory Vlsmc.Paging Vlsmc.CowClone Vlsmc.AddressSpaceSteps
open Vlsmc.FrameSupply Vlsmc.KernelMappings
open Vlsmc.DemandPaging (Vma VmaType)
open Vlsmc.Elf (pageUp pageDown)
open Vlsmc.Regions (minusOne pageFlags mapAnonymous)
open Vlsmc.MmapPlacement (Pages roundUp)
open Vlsmc.MmioGrants (kernelSpaceEnd)

inductive Anon where
  | done (m : Machine)
  | failed (m : Machine)
  | stopped

/-- The loop of `sys_mmap` for an anonymous mapping. A page that is not there when it is
cleared stops the kernel. -/
def anonPages (vaddr flags : ℕ) : ℕ → ℕ → Machine → Anon
  | 0, _, m => .done m
  | n+1, i, m =>
    let frame := m.allocFrame.1
    let m := m.allocFrame.2
    if frame = 0 then .failed (munmapPages vaddr i m)
    else
      let virt := u32 (vaddr+4096*i)
      let m := m.mapPage virt frame flags
      if present (m.walk virt).1 && present (m.walk virt).2 then
        anonPages vaddr flags n (i+1) (m.clear (frameOf (m.walk virt).2))
      else .stopped

inductive Ended where
  | returned (r : ℕ) (c : Caller)
  | stopped

/-- `sys_mmap` with `MAP_ANONYMOUS`; `none` only if the search does not end. -/
def sysMmapAnonymous (c : Caller) (help : Help) (addr size prot flags : ℕ) : Option Ended :=
  if size = 0 then some (.returned minusOne c)
  else
    let length := pageUp size
    (mmapVaddr c.vmaList addr length flags).map fun vaddr =>
      if vaddr = 0 then .returned minusOne c
      else
        let m := c.record help
        if help.kmalloc = false then .returned minusOne { c with machine := m }
        else
          let vma : Vma := {
            start := vaddr, finish := u32 (vaddr+length), flags := pageFlags prot, type := .anon,
            fileVnode := none, fileOffset := 0, fileSize := 0 }
          match anonPages vaddr (pageFlags prot) (length/4096) 0 m with
          | .done m => .returned vaddr { c with machine := m, vmaList := vma::c.vmaList }
          | .failed m => .returned minusOne { c with machine := m }
          | .stopped => .stopped

/-- The table for the user pages of entry `j` of the loaded directory. -/
def userTable (m : Machine) (j : ℕ) : Option ℕ :=
  if 8 ≤ j ∧ j < 1023 ∧ present (m.mem m.cr3 j) = true then some (frameOf (m.mem m.cr3 j))
  else none

/-- The entry by which a page is mapped. -/
def mapping (m : Machine) (virt : ℕ) : Option ℕ :=
  if present (m.walk virt).1 && present (m.walk virt).2 then some (m.walk virt).2 else none

/-- The loaded directory has its recursive entry and tables of its own, all in use. -/
structure Tables (m : Machine) : Prop where
  window : frameOf (m.mem m.cr3 1023) = m.cr3
  null : m.pmm.memoryBitmap 0 = true
  dir : m.pmm.memoryBitmap m.cr3 = true
  tables : ∀ j t, userTable m j = some t → m.pmm.memoryBitmap t = true ∧ t ≠ m.cr3
  distinct : ∀ i j t, userTable m i = some t → userTable m j = some t → i = j

/-- A page table that the call has made. -/
def NewTable (m m' : Machine) (f : ℕ) : Prop := ∃ j, userTable m' j = some f ∧ userTable m j = none

/-- The call ends. Either all pages of the mapping are there and hold zeroes, or it returns -1
and the mappings, the VMAs and the frames are as before, up to new page tables. -/
def AllOrNothing (c : Caller) (help : Help) (addr size prot flags : ℕ) : Prop :=
  ∃ r d, sysMmapAnonymous c help addr size prot flags = some (.returned r d) ∧
    ((r ≠ minusOne ∧ ∀ i < roundUp size/4096, ∃ w, mapping d.machine (r+4096*i) = some w ∧
        ∀ k < 1024, d.machine.mem (frameOf w) k = 0) ∨
      (r = minusOne ∧ d.vmaList = c.vmaList ∧
        (∀ v, UserPage v → mapping d.machine v = mapping c.machine v) ∧
        (d.machine.pmm = c.machine.pmm ∨
          ∀ f, d.machine.pmm.memoryBitmap f = (c.record help).pmm.memoryBitmap f ∨
            NewTable c.machine d.machine f)))

/-- Page `i` of the mapping is the first one that needs its table. -/
def NeedsTable (m : Machine) (vaddr i : ℕ) : Prop :=
  userTable m ((vaddr+4096*i)/4194304) = none ∧
    ∀ l < i, (vaddr+4096*l)/4194304 ≠ (vaddr+4096*i)/4194304

instance (m : Machine) (vaddr i : ℕ) : Decidable (NeedsTable m vaddr i) :=
  inferInstanceAs (Decidable (_ ∧ _))

/-- The frames for the first pages of the mapping and their tables. -/
def framesFor (m : Machine) (vaddr : ℕ) : ℕ → ℕ
  | 0 => 0
  | i+1 => framesFor m vaddr i+if NeedsTable m vaddr i then 2 else 1

/-- Page `i` gets its frame, but no frame is left for its table. -/
def StopsAt (m : Machine) (vaddr i : ℕ) : Prop :=
  NeedsTable m vaddr i ∧ Gives m.pmm (framesFor m vaddr i+1) ∧ ¬ Gives m.pmm (framesFor m vaddr i+2)

/-- The pages before page `i` are mapped, and no frame is left for it. -/
def FailsAt (m : Machine) (vaddr i : ℕ) : Prop :=
  Gives m.pmm (framesFor m vaddr i) ∧ ¬ Gives m.pmm (framesFor m vaddr i+1)

instance (m : Machine) (vaddr i : ℕ) : Decidable (StopsAt m vaddr i) :=
  inferInstanceAs (Decidable (_ ∧ _))

instance (m : Machine) (vaddr i : ℕ) : Decidable (FailsAt m vaddr i) :=
  inferInstanceAs (Decidable (_ ∧ _))

/-- No page table is missing a frame, and where a data frame is missing, nothing was mapped at
the pages before. -/
def Recoverable (m : Machine) (vaddr n : ℕ) : Prop :=
  ∀ i < n, ¬ StopsAt m vaddr i ∧ (FailsAt m vaddr i → ∀ l < i, mapping m (vaddr+4096*l) = none)

instance (m : Machine) (vaddr n : ℕ) : Decidable (Recoverable m vaddr n) :=
  inferInstanceAs (Decidable (∀ i < n, _ ∧ (_ → ∀ l < i, _)))

/-- The mapping ends below the recursive window. -/
def InUserSpace (c : Caller) (addr size flags : ℕ) : Prop :=
  ∀ vaddr, mmapVaddr c.vmaList addr (pageUp size) flags = some vaddr → vaddr ≠ 0 →
    vaddr+roundUp size ≤ windowStart

/-- If the call comes to its pages, it can take them back. -/
def CanRecover (c : Caller) (help : Help) (addr size flags : ℕ) : Prop :=
  ∀ vaddr, mmapVaddr c.vmaList addr (pageUp size) flags = some vaddr → vaddr ≠ 0 →
    size ≠ 0 → help.kmalloc = true → Recoverable (c.record help) vaddr (roundUp size/4096)

section Walk

variable {m m' : Machine} {virt v : ℕ}

theorem userTable_some {j t : ℕ} (h : userTable m j = some t) :
    8 ≤ j ∧ j < 1023 ∧ present (m.mem m.cr3 j) = true ∧ frameOf (m.mem m.cr3 j) = t := by
  unfold userTable at h
  split_ifs at h with hc
  exact ⟨hc.1, hc.2.1, hc.2.2, Option.some.inj h⟩

theorem mapping_eq (hv : UserPage v) : mapping m v =
    (userTable m (v/4194304)).bind fun t =>
      if present (m.mem t (v/4096%1024)) then some (m.mem t (v/4096%1024)) else none := by
  obtain ⟨-, h8, hlt⟩ := userPage_table hv
  unfold mapping userTable Machine.walk
  dsimp only
  cases hp : present (m.mem m.cr3 (v/4194304)) with
  | false => simp
  | true => simp [h8, hlt]

/-- One entry is stored, in table `t` with the entry `pde` in the directory; a table that was
not there is new. -/
structure Put (m m' : Machine) (virt word t pde : ℕ) : Prop where
  cr3 : m'.cr3 = m.cr3
  mem : ∀ f k, m'.mem f k = if f = t ∧ k = virt/4096%1024 then word
    else if f = m.cr3 ∧ k = virt/4194304 then pde
    else if userTable m (virt/4194304) = none ∧ f = t ∧ k < 1024 then 0 else m.mem f k
  present : present pde = true
  frame : frameOf pde = t
  pmm : m'.pmm = if userTable m (virt/4194304) = none then m.pmm.allocFrame.2 else m.pmm
  table : userTable m (virt/4194304) = some t ∨
    userTable m (virt/4194304) = none ∧ t = m.pmm.allocFrame.1 ∧ t ≠ 0

theorem userTable_none (hv : UserPage virt) :
    userTable m (virt/4194304) = none ↔ present (m.mem m.cr3 (virt/4194304)) = false := by
  obtain ⟨-, h8, hlt⟩ := userPage_table hv
  unfold userTable
  cases hp : present (m.mem m.cr3 (virt/4194304)) <;> simp [h8, hlt]

/-- `map_page`, unless it has no frame for the table. -/
theorem mapPage_put (h : Tables m) (hv : UserPage virt) (phys flags : ℕ)
    (h0 : userTable m (virt/4194304) = none → m.allocFrame.1 ≠ 0) :
    ∃ t pde, Put m (m.mapPage virt phys flags) virt (entry phys ((flags%4096) ||| 1)) t pde := by
  obtain ⟨hword, h8, hlt⟩ := userPage_table hv
  have hnone := userTable_none (m := m) hv
  have halloc : present (m.mem m.cr3 (virt/4194304)) = false →
      m.allocFrame.1 ≠ 0 ∧ m.allocFrame.1 ≠ m.cr3 := fun hp => by
    have hnz := h0 (hnone.mpr hp)
    refine ⟨hnz, fun he => ?_⟩
    have hbit := (alloc_takes hnz).1.bit
    rw [← Machine.allocFrame_fst, he, h.dir] at hbit
    exact absurd hbit (by decide)
  obtain ⟨t, pde, hs⟩ := mapPage_stored h.window hword (by omega) halloc
  refine ⟨t, pde, hs.cr3, fun f k => ?_, hs.linked, hs.frame, ?_, ?_⟩
  · simp only [hnone]
    exact hs.mem f k
  · rcases hs.table with ⟨hp, -, hpmm⟩ | ⟨hp, -, -, hpmm⟩
    · rw [hpmm, if_neg fun hn => ?_]
      rw [hnone, hp] at hn
      exact absurd hn (by decide)
    · rw [hpmm, if_pos (hnone.mpr hp)]
  · rcases hs.table with ⟨hp, ht, -⟩ | ⟨hp, ht, hnz, -⟩
    · exact Or.inl ((if_pos ⟨h8, hlt, hp⟩).trans (congrArg some ht))
    · exact Or.inr ⟨hnone.mpr hp, ht, hnz⟩

end Walk

section Entries

variable {m m' : Machine} {virt v word t pde : ℕ} (h : Tables m) (hv : UserPage virt)
  (hp : Put m m' virt word t pde)

include hp

/-- The table was there, or its frame was free. -/
theorem put_table : userTable m (virt/4194304) = some t ∧ m'.pmm = m.pmm ∨
    userTable m (virt/4194304) = none ∧ Free m.pmm t ∧ m'.pmm = m.pmm.allocFrame.2 ∧
      m'.pmm.memoryBitmap t = true := by
  have hpmm := hp.pmm
  rcases hp.table with ht | ⟨ht, hfst, h0⟩
  · rw [if_neg (by rw [ht]; simp)] at hpmm
    exact Or.inl ⟨ht, hpmm⟩
  · rw [if_pos ht] at hpmm
    rw [hfst] at h0
    obtain ⟨hfree, -, hset, -⟩ := alloc_takes h0
    rw [← hfst] at hfree hset
    exact Or.inr ⟨ht, hfree, hpmm, by rw [hpmm]; exact hset⟩

theorem put_mem {f : ℕ} (hft : f ≠ t) (hfd : f ≠ m.cr3) (k : ℕ) : m'.mem f k = m.mem f k := by
  rw [hp.mem, if_neg fun hc => hft hc.1, if_neg fun hc => hfd hc.1, if_neg fun hc => hft hc.2.1]

theorem put_used {f : ℕ} (hf : m.pmm.memoryBitmap f = true) : m'.pmm.memoryBitmap f = true := by
  rcases put_table hp with ⟨-, hpmm⟩ | ⟨-, -, hpmm, -⟩
  · rw [hpmm]
    exact hf
  · rw [hpmm]
    exact allocFrame_used _ f hf

include h

theorem put_dir : t ≠ m.cr3 := by
  rcases put_table hp with ⟨ht, -⟩ | ⟨-, hfree, -⟩
  · exact (h.tables _ _ ht).2
  · rintro rfl
    have hbit := hfree.bit
    rw [h.dir] at hbit
    exact absurd hbit (by decide)

theorem put_entry (j : ℕ) : m'.mem m.cr3 j = if j = virt/4194304 then pde else m.mem m.cr3 j := by
  have hdir := put_dir h hp
  rw [hp.mem, if_neg fun hc => hdir hc.1.symm]
  by_cases hj : j = virt/4194304
  · rw [if_pos ⟨rfl, hj⟩, if_pos hj]
  · rw [if_neg fun hc => hj hc.2, if_neg fun hc => hdir hc.2.1.symm, if_neg hj]

include hv

theorem put_userTable (j : ℕ) :
    userTable m' j = if j = virt/4194304 then some t else userTable m j := by
  obtain ⟨-, h8, hlt⟩ := userPage_table hv
  unfold userTable
  rw [hp.cr3, put_entry h hp]
  by_cases hj : j = virt/4194304
  · rw [if_pos hj, if_pos hj, hp.present, hp.frame,
      if_pos ⟨by omega, by omega, rfl⟩]
  · rw [if_neg hj, if_neg hj]

theorem put_tables : Tables m' := by
  obtain ⟨-, h8, hlt⟩ := userPage_table hv
  have hold : ∀ j s, j ≠ virt/4194304 → userTable m j = some s → s ≠ t := by
    rintro j s hj hs rfl
    rcases put_table hp with ⟨ht, -⟩ | ⟨-, hfree, -⟩
    · exact hj (h.distinct _ _ _ hs ht)
    · have hbit := (h.tables _ _ hs).1
      rw [hfree.bit] at hbit
      exact absurd hbit (by decide)
  refine ⟨?_, put_used hp h.null, ?_, fun j s hs => ?_, fun i j s hi hj => ?_⟩
  · rw [hp.cr3, put_entry h hp, if_neg (by omega), h.window]
  · rw [hp.cr3]
    exact put_used hp h.dir
  · rw [put_userTable h hv hp] at hs
    rw [hp.cr3]
    by_cases hj : j = virt/4194304
    · rw [if_pos hj] at hs
      obtain rfl := Option.some.inj hs
      refine ⟨?_, put_dir h hp⟩
      rcases put_table hp with ⟨ht, -⟩ | ⟨-, -, -, hset⟩
      · exact put_used hp (h.tables _ _ ht).1
      · exact hset
    · rw [if_neg hj] at hs
      exact ⟨put_used hp (h.tables _ _ hs).1, (h.tables _ _ hs).2⟩
  · rw [put_userTable h hv hp] at hi hj
    by_cases hiv : i = virt/4194304
    · by_cases hjv : j = virt/4194304
      · rw [hiv, hjv]
      · rw [if_pos hiv] at hi
        rw [if_neg hjv] at hj
        exact absurd (Option.some.inj hi).symm (hold j s hjv hj)
    · rw [if_neg hiv] at hi
      by_cases hjv : j = virt/4194304
      · rw [if_pos hjv] at hj
        exact absurd (Option.some.inj hj).symm (hold i s hiv hi)
      · rw [if_neg hjv] at hj
        exact h.distinct _ _ _ hi hj

theorem put_mapping (hw : present word = true) : mapping m' virt = some word := by
  have hword : m'.mem t (virt/4096%1024) = word := by rw [hp.mem, if_pos ⟨rfl, rfl⟩]
  rw [mapping_eq hv, put_userTable h hv hp, if_pos rfl, Option.bind_some, hword, if_pos hw]

theorem put_other (hv' : UserPage v) (hne : v/4096 ≠ virt/4096) : mapping m' v = mapping m v := by
  rw [mapping_eq hv', mapping_eq hv', put_userTable h hv hp]
  have hlt : v/4096%1024 < 1024 := Nat.mod_lt _ (by decide)
  by_cases hj : v/4194304 = virt/4194304
  · have hidx : v/4096%1024 ≠ virt/4096%1024 := by omega
    have hword := hp.mem t (v/4096%1024)
    rw [if_neg fun hc => hidx hc.2, if_neg fun hc => put_dir h hp hc.1] at hword
    rw [if_pos hj, hj, Option.bind_some, hword]
    rcases put_table hp with ⟨ht, -⟩ | ⟨ht, -⟩
    · have hold : ¬ (userTable m (virt/4194304) = none ∧ t = t ∧ v/4096%1024 < 1024) := by
        rw [ht]
        simp
      rw [if_neg hold, ht, Option.bind_some]
    · have hnew : userTable m (virt/4194304) = none ∧ t = t ∧ v/4096%1024 < 1024 := ⟨ht, rfl, hlt⟩
      rw [if_pos hnew, ht]
      rfl
  · rw [if_neg hj]
    cases hs : userTable m (v/4194304) with
    | none => rfl
    | some s =>
      have hst : s ≠ t := by
        rintro rfl
        rcases put_table hp with ⟨ht, -⟩ | ⟨-, hfree, -⟩
        · exact hj (h.distinct _ _ _ hs ht)
        · have hbit := (h.tables _ _ hs).1
          rw [hfree.bit] at hbit
          exact absurd hbit (by decide)
      rw [Option.bind_some, Option.bind_some, put_mem hp hst (h.tables _ _ hs).2]

end Entries

/-- The loop before page `i`; `data` gives the frames of the pages. -/
structure Filled (m₀ : Machine) (vaddr word : ℕ) (data : ℕ → ℕ) (i : ℕ) (m : Machine) : Prop where
  tables : Tables m
  cr3 : m.cr3 = m₀.cr3
  pmm : m.pmm = allocFrames m₀.pmm (framesFor m₀ vaddr i)
  gives : Gives m₀.pmm (framesFor m₀ vaddr i)
  old : ∀ j s, userTable m₀ j = some s → userTable m j = some s
  new : ∀ j, (userTable m j).isSome = true → (userTable m₀ j).isSome = true ∨
    ∃ l < i, (vaddr+4096*l)/4194304 = j
  made : ∀ l < i, (userTable m ((vaddr+4096*l)/4194304)).isSome = true
  kept : ∀ v, UserPage v → (∀ l < i, (vaddr+4096*l)/4096 ≠ v/4096) → mapping m v = mapping m₀ v
  pages : ∀ l < i, mapping m (vaddr+4096*l) = some (entry (data l) word)
  zero : ∀ l < i, ∀ k < 1024, m.mem (data l) k = 0
  free : ∀ l < i, Free m₀.pmm (data l)
  held : ∀ l < i, m.pmm.memoryBitmap (data l) = true ∧ m.pmm.refcounts (data l) = 1
  apart : ∀ l < i, ∀ j, userTable m j ≠ some (data l)
  inj : ∀ k < i, ∀ l < i, data k = data l → k = l
  used : ∀ f, m₀.pmm.memoryBitmap f = true → m.pmm.memoryBitmap f = true
  taken : ∀ f, m.pmm.memoryBitmap f = true →
    m₀.pmm.memoryBitmap f = true ∨ (∃ l < i, data l = f) ∨ NewTable m₀ m f

section Loop

variable {m₀ m : Machine} {vaddr n i : ℕ} {data : ℕ → ℕ}

theorem filled_start (h : Tables m₀) (vaddr word : ℕ) (data : ℕ → ℕ) :
    Filled m₀ vaddr word data 0 m₀ := by
  have hno : ∀ l, ¬ l < 0 := Nat.not_lt_zero
  exact ⟨h, rfl, rfl, fun k hk => absurd hk (hno k), fun _ _ hs => hs, fun _ hs => Or.inl hs,
    fun l hl => absurd hl (hno l), fun _ _ _ => rfl, fun l hl => absurd hl (hno l),
    fun l hl => absurd hl (hno l), fun l hl => absurd hl (hno l), fun l hl => absurd hl (hno l),
    fun l hl => absurd hl (hno l), fun k hk => absurd hk (hno k), fun _ hf => hf,
    fun _ hf => Or.inl hf⟩

/-- The table is missing now exactly if it is for this page that it is made. -/
theorem needsTable_iff {word : ℕ} (h : Filled m₀ vaddr word data i m) :
    userTable m ((vaddr+4096*i)/4194304) = none ↔ NeedsTable m₀ vaddr i := by
  constructor
  · intro hn
    refine ⟨?_, fun l hl he => ?_⟩
    · cases hs : userTable m₀ ((vaddr+4096*i)/4194304) with
      | none => rfl
      | some s =>
        rw [h.old _ s hs] at hn
        exact absurd hn (by simp)
    · have hsome := h.made l hl
      rw [he, hn] at hsome
      exact absurd hsome (by decide)
  · rintro ⟨h0, hl⟩
    by_contra hn
    have hsome : (userTable m ((vaddr+4096*i)/4194304)).isSome = true := by
      simpa using Option.ne_none_iff_isSome.mp hn
    rcases h.new _ hsome with hs | ⟨l, hli, he⟩
    · rw [h0] at hs
      exact absurd hs (by decide)
    · exact hl l hli he

theorem clear_other (m : Machine) {f g : ℕ} (hf : f ≠ g) (k : ℕ) : (m.clear g).mem f k = m.mem f k :=
  if_neg fun hc => hf hc.1

/-- Clearing a frame that is no page table changes no mapping. -/
theorem clear_tables (h : Tables m) {g : ℕ} (hdir : g ≠ m.cr3) (htab : ∀ j, userTable m j ≠ some g) :
    Tables (m.clear g) ∧ (∀ j, userTable (m.clear g) j = userTable m j) ∧
    ∀ v, UserPage v → mapping (m.clear g) v = mapping m v := by
  have hentry : ∀ j, (m.clear g).mem (m.clear g).cr3 j = m.mem m.cr3 j := fun j =>
    clear_other m hdir.symm j
  have htable : ∀ j, userTable (m.clear g) j = userTable m j := fun j => by
    unfold userTable
    rw [hentry]
  refine ⟨⟨?_, h.null, h.dir, fun j s hs => ?_, fun a b s ha hb => ?_⟩, htable, fun v hv => ?_⟩
  · rw [hentry]
    exact h.window
  · rw [htable] at hs
    exact h.tables j s hs
  · rw [htable] at ha hb
    exact h.distinct a b s ha hb
  · rw [mapping_eq hv, mapping_eq hv, htable]
    cases hs : userTable m (v/4194304) with
    | none => rfl
    | some s =>
      have hsg : s ≠ g := by
        rintro rfl
        exact htab _ hs
      rw [Option.bind_some, Option.bind_some, clear_other m hsg]

/-- The machine after `alloc_frame` has given `f`. -/
structure Allocated (m : Machine) (f : ℕ) (m₁ : Machine) : Prop where
  mem : m₁.mem = m.mem
  cr3 : m₁.cr3 = m.cr3
  pmm : m₁.pmm = m.pmm.allocFrame.2
  frame : m.pmm.allocFrame.1 = f
  ne : f ≠ 0

theorem allocated_same {m₁ : Machine} {f : ℕ} (ha : Allocated m f m₁) :
    (∀ j, userTable m₁ j = userTable m j) ∧ ∀ v, mapping m₁ v = mapping m v := by
  constructor
  · intro j
    unfold userTable
    rw [ha.mem, ha.cr3]
  · intro v
    unfold mapping Machine.walk
    rw [ha.mem, ha.cr3]

theorem allocated_tables (h : Tables m) {m₁ : Machine} {f : ℕ} (ha : Allocated m f m₁) :
    Tables m₁ := by
  have hused : ∀ g, m.pmm.memoryBitmap g = true → m₁.pmm.memoryBitmap g = true := fun g hg => by
    rw [ha.pmm]
    exact allocFrame_used _ g hg
  refine ⟨?_, hused 0 h.null, ?_, fun j s hs => ?_, fun a b s hsa hsb => ?_⟩
  · rw [ha.mem, ha.cr3]
    exact h.window
  · rw [ha.cr3]
    exact hused _ h.dir
  · rw [(allocated_same ha).1] at hs
    rw [ha.cr3]
    exact ⟨hused s (h.tables j s hs).1, (h.tables j s hs).2⟩
  · rw [(allocated_same ha).1] at hsa hsb
    exact h.distinct a b s hsa hsb

/-- Frames other than that of a new table keep their place. -/
theorem put_same {m' : Machine} {virt word t pde : ℕ} (hp : Put m m' virt word t pde) {g : ℕ}
    (hg : g ≠ t) : Same m.pmm m'.pmm g := by
  rcases hp.table with ht | ⟨ht, hfst, h0⟩
  · rw [hp.pmm, if_neg (by rw [ht]; simp)]
    exact ⟨rfl, rfl⟩
  · rw [hp.pmm, if_pos ht]
    rw [hfst] at h0 hg
    exact (alloc_takes h0).2.2.2.2 g hg

/-- Tables stay where they are. -/
theorem put_keeps (h : Tables m) {m' : Machine} {virt word t pde : ℕ} (hv : UserPage virt)
    (hp : Put m m' virt word t pde) {j s : ℕ} (hs : userTable m j = some s) :
    userTable m' j = some s := by
  rw [put_userTable h hv hp]
  split_ifs with hj
  · rcases put_table hp with ⟨ht, -⟩ | ⟨ht, -⟩
    · rw [← ht, ← hj, hs]
    · rw [← hj, hs] at ht
      exact absurd ht (by simp)
  · exact hs

theorem filled_maxFrames {word : ℕ} (h : Filled m₀ vaddr word data i m) :
    m.pmm.maxFrames = m₀.pmm.maxFrames := by
  rw [h.pmm]
  exact allocFrames_maxFrames _ _

theorem framesFor_succ (m : Machine) (vaddr i : ℕ) : framesFor m vaddr (i+1) =
    framesFor m vaddr i+if NeedsTable m vaddr i then 2 else 1 := rfl

/-- One page gets its frame and is cleared. -/
theorem filled_step {word f : ℕ} (h₀ : Tables m₀) (h : Filled m₀ vaddr word data i m)
    (hv : ∀ l ≤ i, UserPage (vaddr+4096*l)) (hw : present (entry f word) = true)
    {m₁ m₂ : Machine} (ha : Allocated m f m₁) {t pde : ℕ}
    (hp : Put m₁ m₂ (vaddr+4096*i) (entry f word) t pde) :
    Filled m₀ vaddr word (fun l => if l = i then f else data l) (i+1) (m₂.clear f) := by
  have hvi := hv i le_rfl
  have htab1 := allocated_tables h.tables ha
  obtain ⟨hsame, hmap⟩ := allocated_same ha
  have hneed : userTable m₁ ((vaddr+4096*i)/4194304) = none ↔ NeedsTable m₀ vaddr i := by
    rw [hsame]
    exact needsTable_iff h
  obtain ⟨hfree, -, hset1, hone1, hother1⟩ := alloc_takes (by rw [ha.frame]; exact ha.ne)
  rw [ha.frame, ← ha.pmm] at *
  have hfree0 : Free m₀.pmm f := by
    refine ⟨?_, by rw [← filled_maxFrames h]; exact hfree.bound⟩
    by_contra hb
    have hbit := h.used f (by simpa using hb)
    rw [hfree.bit] at hbit
    exact absurd hbit (by decide)
  -- the frame of the page is no table, neither before nor after
  have hnot : ∀ g, m₁.pmm.memoryBitmap g = true → g ≠ f → m.pmm.memoryBitmap g = true := by
    intro g hg hgf
    rw [← (hother1 g hgf).1]
    exact hg
  have hftab : ∀ j, userTable m₁ j ≠ some f := by
    intro j hj
    rw [hsame] at hj
    have hbit := (h.tables.tables j f hj).1
    rw [hfree.bit] at hbit
    exact absurd hbit (by decide)
  have htf : t ≠ f := by
    rcases put_table hp with ⟨ht, -⟩ | ⟨-, hft, -⟩
    · rintro rfl
      exact hftab _ ht
    · rintro rfl
      have hbit := hft.bit
      rw [hset1] at hbit
      exact absurd hbit (by decide)
  have hfdir : f ≠ m₁.cr3 := by
    rintro rfl
    have hbit := h.tables.dir
    rw [← ha.cr3, hfree.bit] at hbit
    exact absurd hbit (by decide)
  have hdata : ∀ l < i, data l ≠ f ∧ data l ≠ t ∧ data l ≠ m₁.cr3 := by
    intro l hl
    have hbit := (h.held l hl).1
    refine ⟨?_, ?_, ?_⟩
    · intro he
      rw [he, hfree.bit] at hbit
      exact absurd hbit (by decide)
    · intro he
      rcases put_table hp with ⟨ht, -⟩ | ⟨-, hft, -⟩
      · rw [hsame] at ht
        exact h.apart l hl _ (by rw [he]; exact ht)
      · have hne : data l ≠ f := fun hf => htf (he.symm.trans hf)
        have hbit1 := (hother1 _ hne).1.trans hbit
        rw [he, hft.bit] at hbit1
        exact absurd hbit1 (by decide)
    · intro he
      have hbit0 := (h.free l hl).bit
      rw [he, ha.cr3, h.cr3, h₀.dir] at hbit0
      exact absurd hbit0 (by decide)
  have htab2 : ∀ j, userTable m₂ j ≠ some f := by
    intro j
    rw [put_userTable htab1 hvi hp]
    split_ifs
    · intro he
      exact htf (Option.some.inj he)
    · exact hftab j
  obtain ⟨htab3, huser3, hmap3⟩ := clear_tables (put_tables htab1 hvi hp)
    (by rw [hp.cr3]; exact hfdir) htab2
  have hkeep : ∀ j s, userTable m j = some s → userTable (m₂.clear f) j = some s := by
    intro j s hs
    rw [huser3]
    exact put_keeps htab1 hvi hp (by rw [hsame]; exact hs)
  have hnew : userTable (m₂.clear f) ((vaddr+4096*i)/4194304) = some t := by
    rw [huser3, put_userTable htab1 hvi hp, if_pos rfl]
  have hpmm : (m₂.clear f).pmm = m₂.pmm := rfl
  have hkept : ∀ g, g ≠ f → g ≠ t → Same m.pmm m₂.pmm g := fun g hgf hgt =>
    ⟨(put_same hp hgt).1.trans (hother1 g hgf).1, (put_same hp hgt).2.trans (hother1 g hgf).2⟩
  have hold : ∀ l, l ≠ i → (if l = i then f else data l) = data l := fun l hl => if_neg hl
  have hlt : ∀ l, l < i+1 → l ≠ i → l < i := by omega
  have htwo : ∀ l, l < i → UserPage (vaddr+4096*l) := fun l hl => hv l (by omega)
  have hsupply : m₂.pmm = allocFrames m₀.pmm (framesFor m₀ vaddr (i+1)) ∧
      Gives m₀.pmm (framesFor m₀ vaddr (i+1)) := by
    have hone : Gives m₀.pmm (framesFor m₀ vaddr i+1) := gives_succ.mpr ⟨h.gives, by
      rw [← h.pmm, ha.frame]
      exact ha.ne⟩
    have hpmm1 : m₁.pmm = allocFrames m₀.pmm (framesFor m₀ vaddr i+1) := by
      rw [ha.pmm, h.pmm]
      rfl
    have hcase := hp.pmm
    rw [framesFor_succ]
    by_cases hn : NeedsTable m₀ vaddr i
    · rw [if_pos (hneed.mpr hn)] at hcase
      rw [if_pos hn]
      rcases hp.table with ht | ⟨-, hfst, hne⟩
      · rw [hneed.mpr hn] at ht
        exact absurd ht (by simp)
      · refine ⟨by rw [hcase, hpmm1]; rfl, gives_succ.mpr ⟨hone, ?_⟩⟩
        rw [← hpmm1, ← hfst]
        exact hne
    · rw [if_neg (mt hneed.mp hn)] at hcase
      rw [if_neg hn]
      exact ⟨by rw [hcase, hpmm1], hone⟩
  refine ⟨htab3, ?_, hpmm.trans hsupply.1, hsupply.2, fun j s hs => hkeep j s (h.old j s hs),
    fun j hj => ?_, fun l hl => ?_, fun v hvu hne => ?_, fun l hl => ?_, fun l hl k hk => ?_,
    fun l hl => ?_, fun l hl => ?_, fun l hl j => ?_, fun k hk l hl he => ?_, fun g hg => ?_,
    fun g hg => ?_⟩
  · exact hp.cr3.trans (ha.cr3.trans h.cr3)
  · rw [huser3, put_userTable htab1 hvi hp] at hj
    by_cases hji : j = (vaddr+4096*i)/4194304
    · exact Or.inr ⟨i, by omega, hji.symm⟩
    · rw [if_neg hji, hsame] at hj
      rcases h.new j hj with hs | ⟨l, hl, he⟩
      · exact Or.inl hs
      · exact Or.inr ⟨l, by omega, he⟩
  · by_cases hli : l = i
    · rw [hli, hnew]
      rfl
    · obtain ⟨s, hs⟩ := Option.isSome_iff_exists.mp (h.made l (hlt l hl hli))
      rw [hkeep _ s hs]
      rfl
  · rw [hmap3 v hvu, put_other htab1 hvi hp hvu fun he => hne i (by omega) he.symm, hmap,
      h.kept v hvu fun l hl => hne l (by omega)]
  · by_cases hli : l = i
    · rw [hli, if_pos rfl, hmap3 _ hvi]
      exact put_mapping htab1 hvi hp hw
    · have hl' := hlt l hl hli
      rw [hold l hli, hmap3 _ (htwo l hl'),
        put_other htab1 hvi hp (htwo l hl') (by omega), hmap]
      exact h.pages l hl'
  · by_cases hli : l = i
    · rw [hli, if_pos rfl]
      exact if_pos ⟨rfl, hk⟩
    · have hl' := hlt l hl hli
      obtain ⟨hdf, hdt, hdd⟩ := hdata l hl'
      rw [hold l hli, clear_other _ hdf, put_mem hp hdt hdd, ha.mem]
      exact h.zero l hl' k hk
  · by_cases hli : l = i
    · rw [if_pos hli]
      exact hfree0
    · rw [hold l hli]
      exact h.free l (hlt l hl hli)
  · rw [hpmm]
    by_cases hli : l = i
    · rw [if_pos hli, (put_same hp htf.symm).1, (put_same hp htf.symm).2]
      exact ⟨hset1, hone1⟩
    · have hl' := hlt l hl hli
      obtain ⟨hdf, hdt, -⟩ := hdata l hl'
      rw [hold l hli, (hkept _ hdf hdt).1, (hkept _ hdf hdt).2]
      exact h.held l hl'
  · rw [huser3]
    by_cases hli : l = i
    · rw [if_pos hli]
      exact htab2 j
    · have hl' := hlt l hl hli
      rw [hold l hli, put_userTable htab1 hvi hp]
      split_ifs
      · intro he
        exact (hdata l hl').2.1 (Option.some.inj he).symm
      · rw [hsame]
        exact h.apart l hl' j
  · by_cases hki : k = i
    · by_cases hli : l = i
      · rw [hki, hli]
      · rw [if_pos hki, hold l hli] at he
        exact absurd he.symm (hdata l (hlt l hl hli)).1
    · by_cases hli : l = i
      · rw [if_pos hli, hold k hki] at he
        exact absurd he (hdata k (hlt k hk hki)).1
      · rw [hold k hki, hold l hli] at he
        exact h.inj k (hlt k hk hki) l (hlt l hl hli) he
  · rw [hpmm]
    refine put_used hp ?_
    by_cases hgf : g = f
    · rw [hgf]
      exact hset1
    · rw [(hother1 g hgf).1]
      exact h.used g hg
  · rw [hpmm] at hg
    by_cases hgf : g = f
    · exact Or.inr (Or.inl ⟨i, by omega, by rw [if_pos rfl, hgf]⟩)
    · by_cases hgm : m.pmm.memoryBitmap g = true
      · rcases h.taken g hgm with h1 | ⟨l, hl, he⟩ | ⟨j, hj, hj0⟩
        · exact Or.inl h1
        · exact Or.inr (Or.inl ⟨l, by omega, by rw [hold l (by omega), he]⟩)
        · exact Or.inr (Or.inr ⟨j, hkeep j g hj, hj0⟩)
      · -- only the frame of a new table is left
        have hgt : g = t := by
          by_contra hne
          rw [(hkept g hgf hne).1] at hg
          exact hgm hg
        rcases put_table hp with ⟨ht, -⟩ | ⟨ht, -⟩
        · rw [hsame] at ht
          rw [hgt] at hgm
          exact absurd (h.tables.tables _ _ ht).1 hgm
        · exact Or.inr (Or.inr ⟨_, by rw [hgt]; exact hnew, (hneed.mp ht).1⟩)

end Loop

/-- The undo loop after `n` pages, when the loop stopped in `c`. -/
structure Emptied (vaddr : ℕ) (data : ℕ → ℕ) (c : Machine) (n : ℕ) (m : Machine) : Prop where
  tables : Tables m
  cr3 : m.cr3 = c.cr3
  same : ∀ j, userTable m j = userTable c j
  gone : ∀ l < n, mapping m (vaddr+4096*l) = none
  kept : ∀ v, UserPage v → (∀ l < n, (vaddr+4096*l)/4096 ≠ v/4096) → mapping m v = mapping c v
  maxFrames : m.pmm.maxFrames = c.pmm.maxFrames
  freed : ∀ l < n, m.pmm.memoryBitmap (data l) = false
  others : ∀ f, (∀ l < n, data l ≠ f) → Same c.pmm m.pmm f

section Undo

variable {m₀ m c : Machine} {vaddr word n i : ℕ} {data : ℕ → ℕ}

/-- `sys_mmap` takes one page back: the entry of its table goes, and its frame. -/
theorem munmapPage_mapped (h : Tables m) {virt w : ℕ} (hv : UserPage virt)
    (hw : mapping m virt = some w) (hw0 : frameOf w ≠ 0) :
    ∃ t, userTable m (virt/4194304) = some t ∧
      m.munmapPage virt = (m.write (t, virt/4096%1024) 0).freeFrame (frameOf w) := by
  obtain ⟨hword, h8, hlt⟩ := userPage_table hv
  have hboth : (present (m.walk virt).1 && present (m.walk virt).2) = true ∧
      (m.walk virt).2 = w := by
    unfold mapping at hw
    split_ifs at hw with hc
    exact ⟨hc, Option.some.inj hw⟩
  have hpde : present (m.mem m.cr3 (virt/4194304)) = true := (Bool.and_eq_true_iff.mp hboth.1).1
  have hphys : m.getPhysical virt = entry (frameOf w) (virt%4096) := by
    rw [getPhysical_walk h.window hword, if_pos hboth.1, hboth.2]
  have hne : m.getPhysical virt ≠ 0 := by
    rw [hphys, entry]
    omega
  have hunmap : m.unmapPage virt =
      m.write (frameOf (m.mem m.cr3 (virt/4194304)), virt/4096%1024) 0 :=
    unmapPage_present h.window hword hpde
  refine ⟨_, if_pos ⟨h8, hlt, hpde⟩, ?_⟩
  rw [Machine.munmapPage]
  rw [if_neg hne, hunmap, hphys, frameOf_entry _ (Nat.mod_lt _ (by decide))]

theorem emptied_start (h : Tables c) (vaddr : ℕ) (data : ℕ → ℕ) : Emptied vaddr data c 0 c := by
  have hno : ∀ l, ¬ l < 0 := Nat.not_lt_zero
  exact ⟨h, rfl, fun _ => rfl, fun l hl => absurd hl (hno l), fun _ _ _ => rfl, rfl,
    fun l hl => absurd hl (hno l), fun _ _ => ⟨rfl, rfl⟩⟩

/-- One more page is taken back. -/
theorem emptied_step (h₀ : Tables m₀) (hc : Filled m₀ vaddr word data i c)
    (h : Emptied vaddr data c n m) (hn : n < i) (hv : ∀ l < i, UserPage (vaddr+4096*l))
    (hword : ∀ f, frameOf (entry f word) = f) :
    Emptied vaddr data c (n+1) (m.munmapPage (vaddr+4096*n)) := by
  have hvn := hv n hn
  have hmap : mapping m (vaddr+4096*n) = some (entry (data n) word) := by
    rw [h.kept _ hvn fun l hl => by omega, hc.pages n hn]
  have hused : ∀ l, n ≤ l → l < i → m.pmm.memoryBitmap (data l) = true ∧
      m.pmm.refcounts (data l) = 1 := by
    intro l hnl hli
    have hsame := h.others (data l) fun k hk he => by
      have := hc.inj k (by omega) l hli he
      omega
    rw [hsame.1, hsame.2]
    exact hc.held l hli
  have hbound : data n < m.pmm.maxFrames := by
    rw [h.maxFrames, filled_maxFrames hc]
    exact (hc.free n hn).bound
  have hne0 : data n ≠ 0 := fun he => by
    have hbit := (hc.free n hn).bit
    rw [he, h₀.null] at hbit
    exact absurd hbit (by decide)
  obtain ⟨t, ht, heq⟩ := munmapPage_mapped h.tables hvn hmap (by rw [hword]; exact hne0)
  rw [heq, hword]
  obtain ⟨htused, htdir⟩ := h.tables.tables _ t ht
  -- the frame that goes is no page table
  have hdt : ∀ f, m.pmm.memoryBitmap f = true → f ≠ data n →
      (m.pmm.freeFrame (data n)).memoryBitmap f = true := fun f hf hne => by
    rw [(freeFrame_same m.pmm hne).1]
    exact hf
  have htabn : ∀ j s, userTable m j = some s → s ≠ data n := by
    rintro j s hs rfl
    rw [h.same] at hs
    exact hc.apart n hn j hs
  have hdirn : m.cr3 ≠ data n := fun he => by
    have hbit := (hc.free n hn).bit
    rw [← he, h.cr3, hc.cr3, h₀.dir] at hbit
    exact absurd hbit (by decide)
  have hmem : ∀ f k, ((m.write (t, (vaddr+4096*n)/4096%1024) 0).freeFrame (data n)).mem f k =
      if f = t ∧ k = (vaddr+4096*n)/4096%1024 then 0 else m.mem f k := fun _ _ => rfl
  have hcr3 : ((m.write (t, (vaddr+4096*n)/4096%1024) 0).freeFrame (data n)).cr3 = m.cr3 := rfl
  have hpmm : ((m.write (t, (vaddr+4096*n)/4096%1024) 0).freeFrame (data n)).pmm =
      m.pmm.freeFrame (data n) := rfl
  generalize (m.write (t, (vaddr+4096*n)/4096%1024) 0).freeFrame (data n) = m' at hmem hcr3 hpmm
  have hentry : ∀ j, m'.mem m.cr3 j = m.mem m.cr3 j := fun j => by
    rw [hmem, if_neg fun hh => htdir hh.1.symm]
  have hsame : ∀ j, userTable m' j = userTable m j := fun j => by
    unfold userTable
    rw [hcr3, hentry]
  have hother : ∀ v, UserPage v → v/4096 ≠ (vaddr+4096*n)/4096 → mapping m' v = mapping m v := by
    intro v hvu hvn'
    rw [mapping_eq hvu, mapping_eq hvu, hsame]
    cases hs : userTable m (v/4194304) with
    | none => rfl
    | some s =>
      have hno : ¬ (s = t ∧ v/4096%1024 = (vaddr+4096*n)/4096%1024) := by
        rintro ⟨rfl, hidx⟩
        have := h.tables.distinct _ _ _ hs ht
        omega
      rw [Option.bind_some, Option.bind_some, hmem, if_neg hno]
  refine ⟨⟨?_, ?_, ?_, fun j s hs => ?_, fun a b s ha hb => ?_⟩, hcr3.trans h.cr3,
    fun j => (hsame j).trans (h.same j), fun l hl => ?_, fun v hvu hne => ?_, ?_, fun l hl => ?_,
    fun f hf => ?_⟩
  · rw [hcr3, hentry]
    exact h.tables.window
  · rw [hpmm]
    exact hdt 0 h.tables.null hne0.symm
  · rw [hpmm, hcr3]
    exact hdt _ h.tables.dir hdirn
  · rw [hsame] at hs
    rw [hpmm, hcr3]
    exact ⟨hdt s (h.tables.tables j s hs).1 (htabn j s hs), (h.tables.tables j s hs).2⟩
  · rw [hsame] at ha hb
    exact h.tables.distinct a b s ha hb
  · by_cases hln : l = n
    · have hzero : m'.mem t ((vaddr+4096*n)/4096%1024) = 0 := (hmem _ _).trans (if_pos ⟨rfl, rfl⟩)
      rw [hln, mapping_eq hvn, hsame, ht, Option.bind_some, hzero]
      rfl
    · rw [hother _ (hv l (by omega)) (by omega)]
      exact h.gone l (by omega)
  · rw [hother v hvu fun he => hne n (by omega) he.symm]
    exact h.kept v hvu fun l hl => hne l (by omega)
  · rw [hpmm, freeFrame_maxFrames, h.maxFrames]
  · rw [hpmm]
    by_cases hln : l = n
    · rw [hln]
      exact (freeFrame_last m.pmm hbound (hused n le_rfl hn).2.le).1
    · have hne : data l ≠ data n := fun he => hln (hc.inj l (by omega) n hn he)
      rw [(freeFrame_same m.pmm hne).1]
      exact h.freed l (by omega)
  · have hne : f ≠ data n := (hf n (by omega)).symm
    have hold := h.others f fun l hl => hf l (by omega)
    rw [hpmm]
    exact ⟨(freeFrame_same m.pmm hne).1.trans hold.1, (freeFrame_same m.pmm hne).2.trans hold.2⟩

theorem emptied_run (h₀ : Tables m₀) (hc : Filled m₀ vaddr word data i c) (hn : n ≤ i)
    (hv : ∀ l < i, UserPage (vaddr+4096*l)) (hword : ∀ f, frameOf (entry f word) = f) :
    Emptied vaddr data c n (munmapPages vaddr n c) := by
  induction n with
  | zero => exact emptied_start hc.tables vaddr data
  | succ n ih =>
    have h32 : u32 (vaddr+4096*n) = vaddr+4096*n :=
      u32_of_lt (userPage_table (hv n (by omega))).1
    rw [munmapPages, h32]
    exact emptied_step h₀ hc (ih (by omega)) (by omega) hv hword

/-- After a failure the pages that were mapped are gone, and their frames are free again. -/
theorem failed_leaves (h₀ : Tables m₀) (hc : Filled m₀ vaddr word data i c)
    (hv : ∀ l < i, UserPage (vaddr+4096*l)) (hword : ∀ f, frameOf (entry f word) = f) :
    (∀ l < i, mapping (munmapPages vaddr i c) (vaddr+4096*l) = none) ∧
    (∀ v, UserPage v → (∀ l < i, (vaddr+4096*l)/4096 ≠ v/4096) →
      mapping (munmapPages vaddr i c) v = mapping m₀ v) ∧
    ∀ f, (munmapPages vaddr i c).pmm.memoryBitmap f = m₀.pmm.memoryBitmap f ∨
      NewTable m₀ (munmapPages vaddr i c) f := by
  have he := emptied_run h₀ hc le_rfl hv hword
  refine ⟨he.gone, fun v hvu hne => ?_, fun f => ?_⟩
  · rw [he.kept v hvu hne, hc.kept v hvu hne]
  · by_cases hd : ∃ l < i, data l = f
    · obtain ⟨l, hl, rfl⟩ := hd
      exact Or.inl ((he.freed l hl).trans (hc.free l hl).bit.symm)
    · have hsame := (he.others f fun l hl hf => hd ⟨l, hl, hf⟩).1
      cases hb : c.pmm.memoryBitmap f with
      | true =>
        rcases hc.taken f hb with h1 | h1 | ⟨j, hj, hj0⟩
        · exact Or.inl (by rw [hsame, hb, h1])
        · exact absurd h1 hd
        · exact Or.inr ⟨j, (he.same j).trans hj, hj0⟩
      | false =>
        refine Or.inl ?_
        rw [hsame, hb]
        by_contra hno
        have hset : m₀.pmm.memoryBitmap f = true := by
          cases h0 : m₀.pmm.memoryBitmap f with
          | true => rfl
          | false => exact absurd h0.symm hno
        rw [hc.used f hset] at hb
        exact absurd hb (by decide)

end Undo

section Outcomes

variable {m₀ m : Machine} {vaddr n i : ℕ} {data : ℕ → ℕ}

theorem mapping_some {virt w : ℕ} (h : mapping m virt = some w) :
    (present (m.walk virt).1 && present (m.walk virt).2) = true ∧ (m.walk virt).2 = w := by
  unfold mapping at h
  split_ifs at h with hc
  exact ⟨hc, Option.some.inj h⟩

/-- The loop maps all pages, or runs out of frames at a page or at a table. -/
theorem anonPages_cases (h₀ : Tables m₀) (hv : ∀ l < n, UserPage (vaddr+4096*l)) (flags c : ℕ) :
    ∀ i m data, i+c = n → Filled m₀ vaddr ((flags%4096) ||| 1) data i m →
    (∃ m' data', anonPages vaddr flags c i m = .done m' ∧
      Filled m₀ vaddr ((flags%4096) ||| 1) data' n m') ∨
    (∃ k m' data', k < n ∧ FailsAt m₀ vaddr k ∧ Filled m₀ vaddr ((flags%4096) ||| 1) data' k m' ∧
      anonPages vaddr flags c i m = .failed (munmapPages vaddr k m')) ∨
    ∃ k, k < n ∧ StopsAt m₀ vaddr k ∧ anonPages vaddr flags c i m = .stopped := by
  induction c with
  | zero =>
    intro i m data hin h
    obtain rfl : i = n := hin
    exact Or.inl ⟨m, data, rfl, h⟩
  | succ c ih =>
    intro i m data hin h
    have hvi := hv i (by omega)
    have h32 : u32 (vaddr+4096*i) = vaddr+4096*i := u32_of_lt (userPage_table hvi).1
    have hsupply : (allocFrames m₀.pmm (framesFor m₀ vaddr i)).allocFrame.1 = m.allocFrame.1 := by
      rw [← h.pmm]
      rfl
    rw [anonPages]
    by_cases h0 : m.allocFrame.1 = 0
    · have hsame : m.allocFrame.2 = m := by
        change { m with pmm := m.pmm.allocFrame.2 } = m
        rw [alloc_fails h.tables.null h0]
      right; left
      refine ⟨i, m, data, by omega, ⟨h.gives, fun hg => ?_⟩, h, by rw [if_pos h0, hsame]⟩
      have hne := (gives_succ.mp hg).2
      rw [hsupply] at hne
      exact hne h0
    · have hone : Gives m₀.pmm (framesFor m₀ vaddr i+1) :=
        gives_succ.mpr ⟨h.gives, by rw [hsupply]; exact h0⟩
      have ha : Allocated m m.allocFrame.1 m.allocFrame.2 := ⟨rfl, rfl, rfl, rfl, h0⟩
      have htab := allocated_tables h.tables ha
      have hneed := needsTable_iff h
      rw [← (allocated_same ha).1] at hneed
      have hpmm1 : m.allocFrame.2.pmm = allocFrames m₀.pmm (framesFor m₀ vaddr i+1) := by
        rw [Machine.allocFrame_pmm, h.pmm]
        rfl
      rw [if_neg h0, h32]
      generalize m.allocFrame.1 = f at *
      generalize m.allocFrame.2 = m₁ at *
      dsimp only
      by_cases hfull : NeedsTable m₀ vaddr i ∧ m₁.allocFrame.1 = 0
      · -- nothing is mapped, and the page is absent when it is cleared
        obtain ⟨hword, h8, hlt⟩ := userPage_table hvi
        have habsent : present (m₁.mem m₁.cr3 ((vaddr+4096*i)/4194304)) = false := by
          cases hp : present (m₁.mem m₁.cr3 ((vaddr+4096*i)/4194304)) with
          | false => rfl
          | true =>
            have hsome : userTable m₁ ((vaddr+4096*i)/4194304) = some _ := if_pos ⟨h8, hlt, hp⟩
            rw [hneed.mpr hfull.1] at hsome
            exact absurd hsome (by simp)
        have hwalk : present ((m₁.mapPage (vaddr+4096*i) f flags).walk (vaddr+4096*i)).1 =
            false := by
          rw [mapPage_full htab.window hword habsent hfull.2]
          exact habsent
        right; right
        refine ⟨i, by omega, ⟨hfull.1, hone, fun hg => ?_⟩, ?_⟩
        · have hne := (gives_succ.mp hg).2
          rw [← hpmm1] at hne
          exact hne hfull.2
        · rw [hwalk]
          rfl
      · obtain ⟨t, pde, hput⟩ := mapPage_put htab hvi f flags fun hn he => hfull ⟨hneed.mp hn, he⟩
        have hmap := put_mapping htab hvi hput (present_pte f flags)
        obtain ⟨hboth, hw⟩ := mapping_some hmap
        rw [hboth, if_pos rfl, hw, frameOf_pte]
        exact ih (i+1) _ _ (by omega)
          (filled_step h₀ h (fun l hl => hv l (by omega)) (present_pte f flags) ha hput)

theorem framesFor_mono {j : ℕ} (h : i ≤ j) : framesFor m vaddr i ≤ framesFor m vaddr j := by
  induction j with
  | zero => rw [Nat.le_zero.mp h]
  | succ j ih =>
    by_cases hij : i = j+1
    · rw [hij]
    · exact le_trans (ih (by omega)) (Nat.le_add_right _ _)

/-- Page `i` gets a frame, or no page after it does. -/
theorem short_gives {j : ℕ} (hi : ¬ Gives m.pmm (framesFor m vaddr (i+1))) (hij : i < j) :
    ¬ Gives m.pmm (framesFor m vaddr j) := fun hg => hi (gives_mono hg (framesFor_mono hij))

theorem failsAt_short (h : FailsAt m vaddr i) : ¬ Gives m.pmm (framesFor m vaddr (i+1)) := by
  intro hg
  refine h.2 (gives_mono hg ?_)
  rw [framesFor_succ]
  split_ifs <;> omega

theorem stopsAt_short (h : StopsAt m vaddr i) : ¬ Gives m.pmm (framesFor m vaddr (i+1)) := by
  intro hg
  rw [framesFor_succ, if_pos h.1] at hg
  exact h.2.2 hg

theorem stopsAt_gives (h : StopsAt m vaddr i) : Gives m.pmm (framesFor m vaddr i) :=
  gives_mono h.2.1 (by omega)

/-- The frames run out at one page only. -/
theorem short_unique {j : ℕ} (hi : Gives m.pmm (framesFor m vaddr i))
    (hi' : ¬ Gives m.pmm (framesFor m vaddr (i+1))) (hj : Gives m.pmm (framesFor m vaddr j))
    (hj' : ¬ Gives m.pmm (framesFor m vaddr (j+1))) : i = j := by
  rcases Nat.lt_trichotomy i j with hlt | heq | hgt
  · exact absurd hj (short_gives hi' hlt)
  · exact heq
  · exact absurd hi (short_gives hj' hgt)

end Outcomes

section Call

variable {c : Caller} {help : Help} {addr size prot flags vaddr : ℕ}

theorem record_tables (h : Tables c.machine) (help : Help) : Tables (c.record help) := by
  have hused := (allocBlocks_used c.machine.pmm help.blocks).2
  exact ⟨h.window, hused _ h.null, hused _ h.dir,
    fun j s hs => ⟨hused _ (h.tables j s hs).1, (h.tables j s hs).2⟩, h.distinct⟩

/-- An address is found or refused, and it is above the kernel. -/
theorem mmapVaddr_above (hv : ∀ v ∈ c.vmaList, Pages v) (addr length flags : ℕ) :
    ∃ vaddr, mmapVaddr c.vmaList addr length flags = some vaddr ∧
      (vaddr ≠ 0 → kernelSpaceEnd ≤ vaddr) := by
  unfold mmapVaddr
  split_ifs with hfixed hlow
  · exact ⟨0, rfl, fun h => absurd rfl h⟩
  · refine ⟨_, rfl, fun _ => ?_⟩
    unfold kernelSpaceEnd at hlow ⊢
    unfold pageDown
    omega
  · obtain ⟨d, hd, ⟨-, hfound⟩ | ⟨-, -, hfound⟩⟩ := MmapPlacement.search_ends hv length
    · exact ⟨0, hfound, fun h => absurd rfl h⟩
    · refine ⟨d, hfound, fun _ => ?_⟩
      have hlow := (MmapPlacement.tried_page hv hd).1
      unfold kernelSpaceEnd
      omega

/-- The call when it comes to its pages. -/
theorem sysMmapAnonymous_pages (hs : size ≠ 0) (hk : help.kmalloc = true) (h0 : vaddr ≠ 0)
    (ha : mmapVaddr c.vmaList addr (pageUp size) flags = some vaddr) :
    sysMmapAnonymous c help addr size prot flags =
      match anonPages vaddr (pageFlags prot) (pageUp size/4096) 0 (c.record help) with
      | .done m => some (.returned vaddr { c with
          machine := m
          vmaList := ⟨vaddr, u32 (vaddr+pageUp size), pageFlags prot, .anon, none, 0, 0⟩::
            c.vmaList })
      | .failed m => some (.returned minusOne { c with machine := m })
      | .stopped => some .stopped := by
  rw [sysMmapAnonymous, if_neg hs]
  dsimp only
  rw [ha]
  simp only [Option.map_some, if_neg h0, hk, Bool.true_eq_false, if_false]
  cases anonPages vaddr (pageFlags prot) (pageUp size/4096) 0 (c.record help) <;> rfl

theorem anonPages_mmapPages (vaddr flags n : ℕ) : ∀ i m,
    (∀ m', anonPages vaddr flags n i m = .done m' → mmapPages vaddr flags n i m = (true, m')) ∧
    ∀ m', anonPages vaddr flags n i m = .failed m' → mmapPages vaddr flags n i m = (false, m') := by
  induction n with
  | zero =>
    intro i m
    exact ⟨fun m' h => congrArg _ (Anon.done.inj h), fun m' h => absurd h (by simp [anonPages])⟩
  | succ n ih =>
    intro i m
    rw [anonPages, mmapPages, Machine.mmapPage]
    dsimp only
    by_cases h0 : m.allocFrame.1 = 0
    · rw [if_pos h0, if_pos h0]
      exact ⟨fun m' h => absurd h (by simp), fun m' h => congrArg _ (Anon.failed.inj h)⟩
    · rw [if_neg h0, if_neg h0, if_neg h0]
      split_ifs
      · exact ih (i+1) _
      · exact ⟨fun m' h => absurd h (by simp), fun m' h => absurd h (by simp)⟩

/-- Where the kernel goes on, the call is the `sys_mmap` that leaves out the faults of ring 0. -/
theorem returned_sysMmap (hf : flags.testBit mapAnonymous = true) {fd r : ℕ} {d : Caller}
    (h : sysMmapAnonymous c help addr size prot flags = some (.returned r d)) :
    sysMmap c help addr size prot flags fd = some (r, d) := by
  unfold sysMmapAnonymous at h
  unfold sysMmap
  by_cases hs : size = 0
  · rw [if_pos hs] at h ⊢
    obtain ⟨rfl, rfl⟩ := Ended.returned.inj (Option.some.inj h)
    rfl
  · rw [if_neg hs] at h ⊢
    obtain ⟨vaddr, ha, he⟩ := Option.map_eq_some_iff.mp h
    refine Option.map_eq_some_iff.mpr ⟨vaddr, ha, ?_⟩
    dsimp only at he ⊢
    split_ifs at he ⊢
    · obtain ⟨rfl, rfl⟩ := Ended.returned.inj he
      rfl
    · obtain ⟨rfl, rfl⟩ := Ended.returned.inj he
      rfl
    · obtain ⟨hdone, hfailed⟩ := anonPages_mmapPages vaddr (pageFlags prot) (pageUp size/4096) 0
        (c.record help)
      cases hp : anonPages vaddr (pageFlags prot) (pageUp size/4096) 0 (c.record help) with
      | done m =>
        rw [hp] at he
        obtain ⟨rfl, rfl⟩ := Ended.returned.inj he
        rw [hdone m hp]
      | failed m =>
        rw [hp] at he
        obtain ⟨rfl, rfl⟩ := Ended.returned.inj he
        rw [hfailed m hp]
      | stopped =>
        rw [hp] at he
        exact absurd he (by simp)

/-- A call that is refused before it comes to its pages changes none. -/
theorem refused_unchanged (ha : mmapVaddr c.vmaList addr (pageUp size) flags = some vaddr)
    (h : size = 0 ∨ vaddr = 0 ∨ help.kmalloc = false) :
    AllOrNothing c help addr size prot flags := by
  have hunchanged : ∀ d : Caller, d.vmaList = c.vmaList → d.machine.mem = c.machine.mem →
      d.machine.cr3 = c.machine.cr3 → ∀ v, UserPage v →
      mapping d.machine v = mapping c.machine v := by
    intro d _ hmem hcr3 v _
    unfold mapping Machine.walk
    rw [hmem, hcr3]
  by_cases hs : size = 0
  · exact ⟨minusOne, c, if_pos hs, Or.inr ⟨rfl, rfl, fun _ _ => rfl, Or.inl rfl⟩⟩
  · by_cases h0 : vaddr = 0
    · refine ⟨minusOne, c, ?_, Or.inr ⟨rfl, rfl, fun _ _ => rfl, Or.inl rfl⟩⟩
      rw [sysMmapAnonymous, if_neg hs]
      dsimp only
      rw [ha]
      simp [h0]
    · have hk : help.kmalloc = false := (h.resolve_left hs).resolve_left h0
      refine ⟨minusOne, { c with machine := c.record help }, ?_, Or.inr ⟨rfl, rfl,
        hunchanged _ rfl rfl rfl, Or.inr fun f => Or.inl rfl⟩⟩
      rw [sysMmapAnonymous, if_neg hs]
      dsimp only
      rw [ha]
      simp [h0, hk]

/-- The call is all or nothing exactly if it can take its pages back. -/
theorem pages_iff (ht : Tables c.machine) (hs : size ≠ 0) (hk : help.kmalloc = true)
    (h0 : vaddr ≠ 0) (ha : mmapVaddr c.vmaList addr (pageUp size) flags = some vaddr)
    (hlow : kernelSpaceEnd ≤ vaddr) (hhigh : vaddr+roundUp size ≤ windowStart) :
    AllOrNothing c help addr size prot flags ↔
      Recoverable (c.record help) vaddr (roundUp size/4096) := by
  have htab := record_tables ht help
  have hup : pageUp size = roundUp size := by
    rw [MmapPlacement.pageUp_roundUp]
    refine u32_of_lt ?_
    unfold windowStart at hhigh
    omega
  have hdvd : roundUp size/4096*4096 = roundUp size :=
    Nat.div_mul_cancel (MmapPlacement.roundUp_dvd size)
  have hcall : sysMmapAnonymous c help addr size prot flags = _ :=
    sysMmapAnonymous_pages hs hk h0 ha
  rw [hup] at hcall
  have hne1 : vaddr ≠ minusOne := by
    have hpos := MmapPlacement.roundUp_pos (Nat.pos_of_ne_zero hs)
    unfold windowStart at hhigh
    unfold minusOne
    omega
  generalize hn : roundUp size/4096 = n at *
  have hv : ∀ l < n, UserPage (vaddr+4096*l) := fun l hl => ⟨by omega, by omega⟩
  have hword : ∀ f, frameOf (entry f ((pageFlags prot%4096) ||| 1)) = f := fun f => frameOf_pte f _
  have hpage : ∀ l v, (vaddr+4096*l)/4096 = v/4096 →
      ∀ m : Machine, mapping m v = mapping m (vaddr+4096*l) := by
    intro l v he m
    have h1 : v/4194304 = (vaddr+4096*l)/4194304 := by omega
    unfold mapping Machine.walk
    rw [h1, he]
  rcases anonPages_cases htab hv (pageFlags prot) n 0 (c.record help) (fun _ => 0) (by omega)
    (filled_start htab vaddr _ _) with
    ⟨m', data, heq, hf⟩ | ⟨k, m', data, hkn, hfails, hf, heq⟩ | ⟨k, hkn, hstops, heq⟩
  · -- the frames suffice
    rw [heq] at hcall
    constructor
    · intro _ i hi
      have hgot : Gives (c.record help).pmm (framesFor (c.record help) vaddr (i+1)) :=
        by_contra fun hshort => short_gives hshort hi hf.gives
      exact ⟨fun hst => stopsAt_short hst hgot, fun hfa => absurd hgot (failsAt_short hfa)⟩
    · intro _
      refine ⟨vaddr, _, hcall, Or.inl ⟨hne1, fun i hi => ⟨_, hf.pages i (by omega), fun k hk' => ?_⟩⟩⟩
      rw [hword]
      exact hf.zero i (by omega) k hk'
  · -- no frame is left for page `k`
    rw [heq] at hcall
    obtain ⟨hgone, hkept, hframes⟩ := failed_leaves htab hf (fun l hl => hv l (by omega)) hword
    constructor
    · rintro ⟨r, d, hrd, hres⟩ i hi
      rw [hcall] at hrd
      obtain ⟨rfl, rfl⟩ := Ended.returned.inj (Option.some.inj hrd)
      have hmaps : ∀ v, UserPage v → mapping (munmapPages vaddr k m') v = mapping c.machine v := by
        rcases hres with ⟨hne, -⟩ | ⟨-, -, hmaps, -⟩
        · exact absurd rfl hne
        · exact hmaps
      have hnone : ∀ l < k, mapping (c.record help) (vaddr+4096*l) = none := fun l hl => by
        rw [← hgone l hl]
        exact (hmaps _ (hv l (by omega))).symm
      refine ⟨fun hst => ?_, fun hfa l hl => hnone l ?_⟩
      · have hik := short_unique (stopsAt_gives hst) (stopsAt_short hst) hfails.1
          (failsAt_short hfails)
        rw [hik] at hst
        exact hfails.2 hst.2.1
      · have hik := short_unique hfa.1 (failsAt_short hfa) hfails.1 (failsAt_short hfails)
        omega
    · intro hrec
      refine ⟨minusOne, _, hcall, Or.inr ⟨rfl, rfl, fun v hvu => ?_, Or.inr hframes⟩⟩
      by_cases hin : ∃ l < k, (vaddr+4096*l)/4096 = v/4096
      · obtain ⟨l, hl, he⟩ := hin
        have hold := (hrec k hkn).2 hfails l hl
        change mapping (munmapPages vaddr k m') v = _
        rw [hpage l v he, hgone l hl, hpage l v he]
        exact hold.symm
      · exact hkept v hvu fun l hl he => hin ⟨l, hl, he⟩
  · -- no frame is left for a page table
    rw [heq] at hcall
    constructor
    · rintro ⟨r, d, hrd, -⟩
      rw [hcall] at hrd
      exact absurd (Option.some.inj hrd) (by simp)
    · intro hrec
      exact absurd hstops (hrec k hkn).1

end Call

/-- In user space an anonymous mapping is all or nothing exactly if no page table is missing a
frame, and no page was mapped before that is taken back. -/
theorem anonymous_mmap_all_or_nothing (c : Caller) (help : Help) (ebx ecx edx esi : UInt32)
    (ht : Tables c.machine) (hv : ∀ v ∈ c.vmaList, Pages v) :
    (InUserSpace c ebx.toNat ecx.toNat esi.toNat ∧ CanRecover c help ebx.toNat ecx.toNat esi.toNat →
      AllOrNothing c help ebx.toNat ecx.toNat edx.toNat esi.toNat) ∧
    (InUserSpace c ebx.toNat ecx.toNat esi.toNat →
      AllOrNothing c help ebx.toNat ecx.toNat edx.toNat esi.toNat →
      CanRecover c help ebx.toNat ecx.toNat esi.toNat) := by
  obtain ⟨vaddr, ha, hlow⟩ := mmapVaddr_above hv ebx.toNat (pageUp ecx.toNat) esi.toNat
  have hiff : InUserSpace c ebx.toNat ecx.toNat esi.toNat → ecx.toNat ≠ 0 → vaddr ≠ 0 →
      help.kmalloc = true → (AllOrNothing c help ebx.toNat ecx.toNat edx.toNat esi.toNat ↔
        Recoverable (c.record help) vaddr (roundUp ecx.toNat/4096)) := fun hu hs h0 hk =>
    pages_iff ht hs hk h0 ha (hlow h0) (hu vaddr ha h0)
  constructor
  · rintro ⟨hu, hrec⟩
    by_cases hearly : ecx.toNat = 0 ∨ vaddr = 0 ∨ help.kmalloc = false
    · exact refused_unchanged ha hearly
    · simp only [not_or, Bool.not_eq_false] at hearly
      exact (hiff hu hearly.1 hearly.2.1 hearly.2.2).mpr
        (hrec vaddr ha hearly.2.1 hearly.1 hearly.2.2)
  · intro hu hall w hw hw0 hs hk
    obtain rfl : vaddr = w := Option.some.inj (ha.symm.trans hw)
    exact (hiff hu hs hw0 hk).mp hall

/-- A caller without VMAs; its directory is in frame 1, frames up to `free` are in use. With
`word` its page at 0x20000000 is mapped by a table in frame 2. -/
def smallCaller (word free : ℕ) : Caller where
  machine :=
    { mem := fun f k => if f = 1 ∧ k = 1023 then entry 1 3
        else if f = 1 ∧ k = 128 ∧ word ≠ 0 then entry 2 7
        else if f = 2 ∧ k = 0 then word else 0
      pmm := { memoryBitmap := fun f => decide (f < free), maxFrames := 32, usedFrames := free,
               refcounts := fun f => if f < free then 1 else 0 }
      cr3 := 1
      kernelDirectory := 1 }
  heapStart := 0x10000000
  heapEnd := 0x10000000
  vmaList := []
  thread := ⟨1, false, false, 0, fun _ => ⟨0, 0⟩⟩

def plainHelp : Help := ⟨true, 0, fun _ => none⟩

theorem smallCaller_userTable {word free j t : ℕ}
    (h : userTable (smallCaller word free).machine j = some t) : j = 128 ∧ t = 2 := by
  obtain ⟨h8, hlt, hp, ht⟩ := userTable_some h
  have hmem : (smallCaller word free).machine.mem 1 j =
      if j = 128 ∧ word ≠ 0 then entry 2 7 else 0 := by
    have h1023 : j ≠ 1023 := by omega
    simp [smallCaller, h1023]
  change present ((smallCaller word free).machine.mem 1 j) = true at hp
  change frameOf ((smallCaller word free).machine.mem 1 j) = t at ht
  rw [hmem] at hp ht
  split_ifs at hp ht with hj
  · exact ⟨hj.1, by rw [← ht, frameOf_entry _ (by decide)]⟩
  · exact absurd hp (by decide)

theorem smallCaller_tables (word : ℕ) {free : ℕ} (hfree : 3 ≤ free) :
    Tables (smallCaller word free).machine := by
  have hused : ∀ f < 3, (smallCaller word free).machine.pmm.memoryBitmap f = true := fun f hf =>
    decide_eq_true (by omega)
  refine ⟨frameOf_entry 1 (by decide), hused 0 (by decide), hused 1 (by decide), fun j t ht => ?_,
    fun i j t hi hj => ?_⟩
  · obtain ⟨-, rfl⟩ := smallCaller_userTable ht
    exact ⟨hused 2 (by decide), (by decide : 2 ≠ 1)⟩
  · rw [(smallCaller_userTable hi).1, (smallCaller_userTable hj).1]

/-- With frames enough two pages are mapped at the first free address. -/
theorem anonymous_mmap_two_pages :
    AllOrNothing (smallCaller 0 20) plainHelp (0:UInt32).toNat (0x2000:UInt32).toNat
      (3:UInt32).toNat (32:UInt32).toNat := by
  have hfound : mmapVaddr (smallCaller 0 20).vmaList (0:UInt32).toNat
      (pageUp (0x2000:UInt32).toNat) (32:UInt32).toNat = some 0x20000000 := by
    have hsize : (0x2000:UInt32).toNat = 0x2000 := by decide
    have haddr : (0:UInt32).toNat = 0 := by decide
    have hflags : (32:UInt32).toNat = 32 := by decide
    rw [hsize, haddr, hflags]
    rfl
  refine (anonymous_mmap_all_or_nothing (smallCaller 0 20) plainHelp 0 0x2000 3 32
    (smallCaller_tables 0 (by decide)) (fun v hv => absurd hv List.not_mem_nil)).1
    ⟨fun vaddr hv _ => ?_, fun vaddr hv _ _ _ => ?_⟩
  · obtain rfl := Option.some.inj (hfound.symm.trans hv)
    decide
  · obtain rfl := Option.some.inj (hfound.symm.trans hv)
    decide +kernel

/-- A fixed mapping over a page of the caller fails at its second page, and the page is gone.
Where the only frame goes to the page, the missing table stops the kernel. -/
theorem fixed_mapping_loses_page :
    Tables (smallCaller (entry 3 7) 31).machine ∧
    mapping (smallCaller (entry 3 7) 31).machine 0x20000000 = some (entry 3 7) ∧
    ¬ AllOrNothing (smallCaller (entry 3 7) 31) plainHelp 0x20000000 0x2000 3 48 ∧
    ¬ AllOrNothing (smallCaller 0 31) plainHelp 0 0x1000 3 32 := by
  have htab := smallCaller_tables (entry 3 7) (show 3 ≤ 31 by decide)
  have hold : mapping (smallCaller (entry 3 7) 31).machine 0x20000000 = some (entry 3 7) := by
    decide +kernel
  have hfixed : mmapVaddr (smallCaller (entry 3 7) 31).vmaList 0x20000000 (pageUp 0x2000) 48 =
      some 0x20000000 := by decide
  have hfound : mmapVaddr (smallCaller 0 31).vmaList 0 (pageUp 0x1000) 32 = some 0x20000000 := rfl
  refine ⟨htab, hold, fun h => ?_, fun h => ?_⟩
  · have hrec := (pages_iff htab (by decide) rfl (by decide) hfixed (by decide) (by decide)).mp h
    have hnone := (hrec 1 (by decide)).2 (by decide +kernel) 0 (by decide)
    exact absurd (hold.symm.trans hnone) (by simp)
  · have hrec := (pages_iff (smallCaller_tables 0 (by decide)) (by decide) rfl (by decide) hfound
      (by decide) (by decide)).mp h
    exact (hrec 0 (by decide)).1 (by decide +kernel)

end Vlsmc.MmapRollback
