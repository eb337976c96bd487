import Vlsmc.UserTables
import Vlsmc.BorrowedFrames

/-!
# The life of an address space

A directory is made, the process that it is loaded for maps and unmaps pages, and the directory
is torn down. The frames on loan in between are those of the directory, of its tables and of
its pages, each once, as long as no call writes over the entry of a page that has a frame, maps
a device below the end of memory or loses a frame for want of a table.
-/

set_option autoImplicit false

namespace Vlsmc.ProcessMemory
open Vlsmc.Words Vlsmc.PhysicalMemory Vlsmc.Paging Vlsmc.CowClone Vlsmc.AddressSpaceSteps
open Vlsmc.AddressSpaceLifetimes Vlsmc.AddressSpaceRuns Vlsmc.BorrowedFrames Vlsmc.UserTables

/-- What a process does to its memory, one page at a time. `record` is the request for the VMA
record of `sys_mmap`: without room the heap of the kernel takes a frame, which it keeps. -/
inductive Act where
  | record (room : Bool)
  | mmap (virt : ℕ) (protWrite : Bool)
  | fault (virt flags : ℕ) (data : Option (ℕ → ℕ))
  | mapMmio (virt frame : ℕ)
  | munmap (virt : ℕ)
  | sbrk (virt : ℕ)
  | store (virt value : ℕ)

def Act.run (m : Machine) : Act → Machine
  | .record room => if room then m else { m with pmm := (m.pmm.allocBlocks 1).2 }
  | .mmap virt protWrite => m.mmapPage virt (mmapFlags protWrite)
  | .fault virt flags data => m.faultPage virt flags data
  | .mapMmio virt frame => m.mapPage virt frame 7
  | .munmap virt => m.munmapPage virt
  | .sbrk virt => m.sbrkPage virt
  | .store virt value =>
    match m.userAccess virt true with
    | some p => m.write p value
    | none => m

/-- The life of the address space of one process, after which the directory that was loaded
before is loaded again. -/
def life (m : Machine) (acts : List Act) : Machine :=
  let r := m.createAddressSpace
  if r.1 = 0 then r.2
  else
    ((acts.foldl Act.run (r.2.switchAddressSpace r.1)).switchAddressSpace m.cr3).destroyAddressSpace
      r.1

/-- The frame of a user page. -/
def slot (m : Machine) (d n : ℕ) : Option ℕ := (pteAt m d n).map frameOf

/-- An address of user pages: none below a table of the kernel. -/
structure UserPage (m : Machine) (virt : ℕ) : Prop where
  word : virt < 4294967296
  inside : virt/4194304 < 1023
  entry : present (m.mem m.cr3 (virt/4194304)) = true →
    user (m.mem m.cr3 (virt/4194304)) = true

/-- The page holds no frame of the manager. -/
def Vacant (m : Machine) (virt : ℕ) : Prop :=
  ∀ f, slot m m.cr3 (virt/4096) = some f → m.pmm.maxFrames ≤ f

/-- The table of the page is there, or there is a frame for it. -/
def TableRoom (m : Machine) (virt : ℕ) : Prop :=
  present (m.mem m.cr3 (virt/4194304)) = true ∨ m.allocFrame.1 ≠ 0

/-- What keeps the account of frames straight. -/
def Act.Balanced (m : Machine) : Act → Prop
  | .record room => room = true
  | .mmap virt _ => UserPage m virt ∧ Vacant m virt ∧
    (m.allocFrame.1 ≠ 0 → TableRoom m.allocFrame.2 virt)
  | .fault virt flags _ => UserPage m virt ∧ Vacant m virt ∧ user flags = true ∧
    (m.allocFrame.1 ≠ 0 → TableRoom m.allocFrame.2 virt)
  | .mapMmio virt frame => UserPage m virt ∧ Vacant m virt ∧ m.pmm.maxFrames ≤ frame
  | .munmap virt => UserPage m virt
  | .sbrk virt => UserPage m virt
  | .store virt _ => virt < 4294967296

def BalancedRun : List Act → Machine → Prop
  | [], _ => True
  | a::as, m => a.Balanced m ∧ BalancedRun as (a.run m)

/-- The frames in `S` are those of directory `d`, of its tables and of its pages, each once. The
manager has `N` frames. -/
structure Shape (N d : ℕ) (S : Finset ℕ) (m : Machine) : Prop where
  loaded : m.cr3 = d
  kernel : m.kernelDirectory ≠ d
  recursive : m.mem d 1023 = entry d 3
  inside : ∀ f ∈ S, f < N
  dir : d ∈ S
  table : ∀ i t, tableAt m d i = some t → t ∈ S ∧ t ≠ d
  tables : ∀ i i' t, tableAt m d i = some t → tableAt m d i' = some t → i = i'
  page : ∀ n f, slot m d n = some f → f < N → f ∈ S ∧ f ≠ d ∧ ∀ i, tableAt m d i ≠ some f
  pages : ∀ n n' f, slot m d n = some f → slot m d n' = some f → f < N → n = n'
  all : ∀ f ∈ S, f = d ∨ (∃ i, tableAt m d i = some f) ∨ ∃ n, slot m d n = some f

section Writes

variable {N d : ℕ} {S S' : Finset ℕ} {m m' : Machine} {i t : ℕ}

theorem loaded_rec (h : Shape N d S m) : frameOf (m.mem m.cr3 1023) = m.cr3 := by
  rw [h.loaded, h.recursive, frameOf_entry _ (by decide)]

theorem slot_table {n : ℕ} (h : tableAt m d (n/1024) = some t) : slot m d n =
    if present (m.mem t (n%1024)) then some (frameOf (m.mem t (n%1024))) else none := by
  rw [slot, pteAt_table h]
  split_ifs <;> rfl

theorem slot_some {n f : ℕ} (h : slot m d n = some f) : ∃ t, tableAt m d (n/1024) = some t := by
  obtain ⟨w, hw, -⟩ := Option.map_eq_some_iff.mp h
  obtain ⟨t, ht, -⟩ := pteAt_some hw
  exact ⟨t, ht⟩

/-- The frame of a page is neither the directory nor a table. -/
theorem page_apart (h : Shape N d S m) {n f : ℕ} (hf : slot m d n = some f) :
    f ≠ d ∧ ∀ i, tableAt m d i ≠ some f := by
  by_cases hlt : f < N
  · exact (h.page n f hf hlt).2
  · exact ⟨fun he => hlt (he ▸ h.inside d h.dir), fun i hi => hlt (h.inside f (h.table i f hi).1)⟩

/-- Contents of other frames do not matter. -/
theorem shape_data (h : Shape N d S m) (hspace : SameSpace m m')
    (hdir : m'.mem d = m.mem d) (htab : ∀ i t, tableAt m d i = some t → m'.mem t = m.mem t) :
    Shape N d S m' := by
  have ht : ∀ i, tableAt m' d i = tableAt m d i := fun i => tableAt_congr (by rw [hdir])
  have hslot : ∀ n, slot m' d n = slot m d n := by
    intro n
    unfold slot pteAt
    rw [ht]
    cases hn : tableAt m d (n/1024) with
    | none => rfl
    | some t => simp only [Option.bind_some, htab _ t hn]
  refine ⟨hspace.1.trans h.loaded, hspace.2 ▸ h.kernel, by rw [hdir, h.recursive], h.inside, h.dir, ?_, ?_, ?_, ?_, ?_⟩
  all_goals simp only [ht, hslot]
  · exact h.table
  · exact h.tables
  · exact h.page
  · exact h.pages
  · exact h.all

theorem shape_frame (h : Shape N d S m) {f : ℕ} (hf : f ≠ d ∧ ∀ i, tableAt m d i ≠ some f)
    (hspace : SameSpace m m') (hmem : ∀ g, g ≠ f → m'.mem g = m.mem g) : Shape N d S m' :=
  shape_data h hspace (hmem d hf.1.symm) fun i t ht => hmem t fun he => hf.2 i (he ▸ ht)

/-- Words of the page tables after one of them is written. -/
theorem slot_write (h : Shape N d S m) (ht : tableAt m d i = some t) {j w : ℕ} (hj : j < 1024)
    (hmem : ∀ f k, m'.mem f k = if f = t ∧ k = j then w else m.mem f k) :
    (∀ k, tableAt m' d k = tableAt m d k) ∧ ∀ n, slot m' d n = if n = 1024*i+j then
      (if present w then some (frameOf w) else none) else slot m d n := by
  have hdir : m'.mem d = m.mem d := funext fun k => by
    rw [hmem, if_neg fun hc => (h.table i t ht).2 hc.1.symm]
  have htab : ∀ k, tableAt m' d k = tableAt m d k := fun k => tableAt_congr (by rw [hdir])
  refine ⟨htab, fun n => ?_⟩
  by_cases hn : n = 1024*i+j
  · have h1 : n/1024 = i := by omega
    have h2 : n%1024 = j := by omega
    have hw : m'.mem t (n%1024) = w := by rw [hmem, if_pos ⟨rfl, h2⟩]
    rw [if_pos hn, slot_table (t := t) (by rw [htab, h1, ht]), hw]
  · rw [if_neg hn]
    cases hs : tableAt m d (n/1024) with
    | none => rw [slot, slot, pteAt, pteAt, htab, hs]; rfl
    | some s =>
      have hw : m'.mem s (n%1024) = m.mem s (n%1024) := by
        rw [hmem]
        apply if_neg
        rintro ⟨rfl, hk⟩
        have := h.tables _ _ _ hs ht
        omega
      rw [slot_table ((htab _).trans hs), slot_table hs, hw]

/-- The entry of one page changes, and with it the frames that are held. -/
theorem shape_setPte (h : Shape N d S m) (ht : tableAt m d i = some t) {j w : ℕ} (hj : j < 1024)
    (hspace : SameSpace m m')
    (hmem : ∀ f k, m'.mem f k = if f = t ∧ k = j then w else m.mem f k)
    (hinside : ∀ f ∈ S', f < N)
    (hkeep : ∀ f ∈ S, slot m d (1024*i+j) ≠ some f → f ∈ S')
    (hnew : present w = true → frameOf w < N → frameOf w ∈ S' ∧ frameOf w ∉ S)
    (hall : ∀ f ∈ S', f ∈ S ∧ slot m d (1024*i+j) ≠ some f ∨ present w = true ∧ frameOf w = f) :
    Shape N d S' m' := by
  obtain ⟨htab, hslot⟩ := slot_write h ht hj hmem
  have hdir : m'.mem d = m.mem d := funext fun k => by
    rw [hmem, if_neg fun hc => (h.table i t ht).2 hc.1.symm]
  have hstay : ∀ f ∈ S, (f = d ∨ ∃ i, tableAt m d i = some f) → f ∈ S' := by
    intro f hf hown
    refine hkeep f hf fun hs => ?_
    obtain ⟨h1, h2⟩ := page_apart h hs
    rcases hown with rfl | ⟨k, hk⟩
    · exact h1 rfl
    · exact h2 k hk
  have hcases : ∀ n f, slot m' d n = some f → (n = 1024*i+j ∧ present w = true ∧ frameOf w = f) ∨
      (n ≠ 1024*i+j ∧ slot m d n = some f) := by
    intro n f hn
    rw [hslot] at hn
    split_ifs at hn with h1 h2
    · exact Or.inl ⟨h1, h2, Option.some.inj hn⟩
    · exact Or.inr ⟨h1, hn⟩
  have hother : ∀ n f, n ≠ 1024*i+j → slot m d n = some f → f < N →
      slot m d (1024*i+j) ≠ some f := fun n f hn hs hlt hs' => hn (h.pages n _ f hs hs' hlt)
  refine ⟨hspace.1.trans h.loaded, hspace.2 ▸ h.kernel, by rw [hdir, h.recursive], hinside, hstay d h.dir (Or.inl rfl),
    fun k s hs => ?_, fun k k' s => ?_, fun n f hn hlt => ?_, fun n n' f hn hn' hlt => ?_,
    fun f hf => ?_⟩
  · rw [htab] at hs
    exact ⟨hstay s (h.table k s hs).1 (Or.inr ⟨k, hs⟩), (h.table k s hs).2⟩
  · rw [htab, htab]
    exact h.tables k k' s
  · simp only [htab]
    rcases hcases n f hn with ⟨-, hp, rfl⟩ | ⟨hne, hs⟩
    · obtain ⟨hmem', hnot⟩ := hnew hp hlt
      exact ⟨hmem', fun he => hnot (he ▸ h.dir), fun k hk => hnot (h.table k _ hk).1⟩
    · obtain ⟨hS, hd, htk⟩ := h.page n f hs hlt
      exact ⟨hkeep f hS (hother n f hne hs hlt), hd, htk⟩
  · rcases hcases n f hn with ⟨he, hp, hf⟩ | ⟨hne, hs⟩ <;>
      rcases hcases n' f hn' with ⟨he', hp', hf'⟩ | ⟨hne', hs'⟩
    · exact he.trans he'.symm
    · exact absurd (h.page n' f hs' hlt).1 (hf ▸ (hnew hp (hf ▸ hlt)).2)
    · exact absurd (h.page n f hs hlt).1 (hf' ▸ (hnew hp' (hf' ▸ hlt)).2)
    · exact h.pages n n' f hs hs' hlt
  · rcases hall f hf with ⟨hS, hne⟩ | ⟨hp, rfl⟩
    · rcases h.all f hS with hd | ⟨k, hk⟩ | ⟨n, hn⟩
      · exact Or.inl hd
      · exact Or.inr (Or.inl ⟨k, (htab k).trans hk⟩)
      · refine Or.inr (Or.inr ⟨n, ?_⟩)
        have hne' : n ≠ 1024*i+j := by
          rintro rfl
          exact hne hn
        rw [hslot, if_neg hne']
        exact hn
    · exact Or.inr (Or.inr ⟨1024*i+j, by rw [hslot, if_pos rfl, if_pos hp]⟩)

/-- Directory `d` gets an empty table. -/
theorem shape_table (h : Shape N d S m) (hi : i < 1023) (hnone : present (m.mem d i) = false)
    (ht : t ∉ S) (hlt : t < N) (hspace : SameSpace m m')
    (hmem : ∀ f k, m'.mem f k = if f = d ∧ k = i then entry t 7
      else if f = t ∧ k < 1024 then 0 else m.mem f k)
    (hpages : ∀ n, slot m d n ≠ some t) : Shape N d (insert t S) m' := by
  have htd : t ≠ d := fun he => ht (he ▸ h.dir)
  have hold : tableAt m d i = none := by
    unfold tableAt
    rw [if_neg fun hc => by rw [hnone] at hc; exact absurd hc.2.1 (by decide)]
  have hnew : tableAt m' d i = some t := by
    have hw : m'.mem d i = entry t 7 := by rw [hmem, if_pos ⟨rfl, rfl⟩]
    rw [tableAt_of hi (by rw [hw, present_entry _ (by decide)]; rfl)
      (by rw [hw, user_entry _ (by decide)]; rfl), hw, frameOf_entry _ (by decide)]
  have hdir : ∀ k, k ≠ i → m'.mem d k = m.mem d k := fun k hk => by
    rw [hmem, if_neg fun hc => hk hc.2, if_neg fun hc => htd hc.1.symm]
  have htab : ∀ k, k ≠ i → tableAt m' d k = tableAt m d k := fun k hk =>
    tableAt_congr (hdir k hk)
  have hframe : ∀ s k, s ≠ d → s ≠ t → m'.mem s k = m.mem s k := fun s k hd hst => by
    rw [hmem, if_neg fun hc => hd hc.1, if_neg fun hc => hst hc.1]
  have hslot : ∀ n, slot m' d n = slot m d n := by
    intro n
    by_cases hn : n/1024 = i
    · have hz : m'.mem t (n%1024) = 0 := by
        rw [hmem, if_neg fun hc => htd hc.1, if_pos ⟨rfl, Nat.mod_lt _ (by decide)⟩]
      rw [slot_table (t := t) (by rw [hn, hnew]), hz, if_neg (by decide), slot, pteAt, hn, hold]
      rfl
    · cases hs : tableAt m d (n/1024) with
      | none => rw [slot, slot, pteAt, pteAt, htab _ hn, hs]; rfl
      | some s =>
        obtain ⟨hsS, hsd⟩ := h.table _ s hs
        rw [slot_table ((htab _ hn).trans hs), slot_table hs,
          hframe s _ hsd fun he => ht (he ▸ hsS)]
  have hcases : ∀ k s, tableAt m' d k = some s → (k = i ∧ s = t) ∨ (k ≠ i ∧ tableAt m d k = some s) := by
    intro k s hs
    by_cases hk : k = i
    · rw [hk, hnew] at hs
      exact Or.inl ⟨hk, (Option.some.inj hs).symm⟩
    · exact Or.inr ⟨hk, by rw [← htab k hk, hs]⟩
  refine ⟨hspace.1.trans h.loaded, hspace.2 ▸ h.kernel, by rw [hdir 1023 (by omega), h.recursive],
    fun f hf => ?_, Finset.mem_insert_of_mem h.dir, fun k s hs => ?_, fun k k' s hs hs' => ?_,
    fun n f hn hf => ?_, fun n n' f => ?_, fun f hf => ?_⟩
  · rcases Finset.mem_insert.mp hf with rfl | hf
    · exact hlt
    · exact h.inside f hf
  · rcases hcases k s hs with ⟨-, rfl⟩ | ⟨-, hs⟩
    · exact ⟨Finset.mem_insert_self _ _, htd⟩
    · exact ⟨Finset.mem_insert_of_mem (h.table k s hs).1, (h.table k s hs).2⟩
  · rcases hcases k s hs with ⟨hk, rfl⟩ | ⟨hk, hs⟩ <;>
      rcases hcases k' _ hs' with ⟨hk', he⟩ | ⟨hk', hs'⟩
    · exact hk.trans hk'.symm
    · exact absurd (h.table k' _ hs').1 ht
    · exact absurd (h.table k s hs).1 (he ▸ ht)
    · exact h.tables k k' s hs hs'
  · rw [hslot] at hn
    obtain ⟨hS, hd, htk⟩ := h.page n f hn hf
    refine ⟨Finset.mem_insert_of_mem hS, hd, fun k hk => ?_⟩
    rcases hcases k f hk with ⟨-, rfl⟩ | ⟨-, hk⟩
    · exact hpages n hn
    · exact htk k hk
  · rw [hslot, hslot]
    exact h.pages n n' f
  · rcases Finset.mem_insert.mp hf with rfl | hf
    · exact Or.inr (Or.inl ⟨i, hnew⟩)
    · rcases h.all f hf with hd | ⟨k, hk⟩ | ⟨n, hn⟩
      · exact Or.inl hd
      · refine Or.inr (Or.inl ⟨k, ?_⟩)
        have hki : k ≠ i := by
          rintro rfl
          rw [hold] at hk
          exact absurd hk (by simp)
        rw [htab k hki, hk]
      · exact Or.inr (Or.inr ⟨n, (hslot n).trans hn⟩)

end Writes

section MapPage

variable {p₀ : Pmm} {d virt : ℕ} {S B : Finset ℕ} {m : Machine}

/-- The frames on loan for the address space once a frame of the manager is put in. -/
def placed (N f : ℕ) (S : Finset ℕ) : Finset ℕ := if f < N then insert f S else S

theorem mem_placed {N f g : ℕ} {S : Finset ℕ} : g ∈ placed N f S ↔ g ∈ S ∨ f < N ∧ g = f := by
  unfold placed
  split_ifs with h
  · rw [Finset.mem_insert]
    tauto
  · tauto

theorem present_page (phys flags : ℕ) :
    present (entry phys ((flags%4096) ||| 1)) = true ∧
    frameOf (entry phys ((flags%4096) ||| 1)) = phys :=
  ⟨present_pte phys flags, frameOf_pte phys flags⟩

/-- The entry of a vacant page is filled. -/
theorem shape_put (phys flags : ℕ) {N t : ℕ} {m' : Machine} (h : Shape N d S m)
    (ht : tableAt m d (virt/4194304) = some t)
    (hvac : ∀ f, slot m d (virt/4096) = some f → N ≤ f) (hphys : phys < N → phys ∉ S)
    (hspace : SameSpace m m')
    (hmem : ∀ f k, m'.mem f k = if f = t ∧ k = virt/4096%1024 then
      entry phys ((flags%4096) ||| 1) else m.mem f k) :
    Shape N d (placed N phys S) m' ∧ slot m' d (virt/4096) = some phys := by
  obtain ⟨hp, hf⟩ := present_page phys flags
  rw [page_split] at hvac
  have hold : ∀ f ∈ S, slot m d (1024*(virt/4194304)+virt/4096%1024) ≠ some f := fun f hS hs =>
    absurd (h.inside f hS) (Nat.not_lt.mpr (hvac f hs))
  refine ⟨shape_setPte h ht (Nat.mod_lt _ (by decide)) hspace hmem (fun f hS => ?_)
    (fun f hS _ => mem_placed.mpr (Or.inl hS)) (fun _ hlt => ?_) fun f hS => ?_, ?_⟩
  · rcases mem_placed.mp hS with hS | ⟨hlt, rfl⟩
    · exact h.inside f hS
    · exact hlt
  · rw [hf] at hlt ⊢
    exact ⟨mem_placed.mpr (Or.inr ⟨hlt, rfl⟩), hphys hlt⟩
  · rcases mem_placed.mp hS with hS | ⟨-, rfl⟩
    · exact Or.inl ⟨hS, hold f hS⟩
    · exact Or.inr ⟨hp, hf⟩
  · rw [(slot_write h ht (Nat.mod_lt _ (by decide)) hmem).2, if_pos (page_split virt), if_pos hp, hf]

/-- `map_page` at a vacant page, with a table at hand. The frame of a new table is on loan too. -/
theorem mapPage_placed (phys flags : ℕ) (hs : Settled p₀) (hb : Borrowed p₀ m.pmm B)
    (h : Shape p₀.maxFrames d S m) (hSB : S ⊆ B) (hu : UserPage m virt)
    (huser : user flags = true)
    (hvac : ∀ f, slot m d (virt/4096) = some f → p₀.maxFrames ≤ f)
    (hphys : phys < p₀.maxFrames → phys ∈ B ∧ phys ∉ S) (hroom : TableRoom m virt) :
    ∃ T, Disjoint T B ∧ Borrowed p₀ (m.mapPage virt phys flags).pmm (B ∪ T) ∧
      Shape p₀.maxFrames d (placed p₀.maxFrames phys (S ∪ T)) (m.mapPage virt phys flags) ∧
      slot (m.mapPage virt phys flags) d (virt/4096) = some phys := by
  have hd : d < p₀.maxFrames := h.inside d h.dir
  have hrec := loaded_rec h
  cases hp : present (m.mem m.cr3 (virt/4194304)) with
  | true =>
    have hup := hu.entry hp
    rw [mapPage_present hrec hu.word hp fun _ => hup]
    have ht : tableAt m d (virt/4194304) = some (frameOf (m.mem m.cr3 (virt/4194304))) := by
      rw [h.loaded] at hp hup ⊢
      exact tableAt_of hu.inside hp hup
    refine ⟨∅, Finset.disjoint_empty_left B, by rwa [Finset.union_empty], ?_⟩
    rw [Finset.union_empty]
    exact shape_put phys flags h ht hvac (fun hlt => (hphys hlt).2) ⟨rfl, rfl⟩ fun f k => rfl
  | false =>
    have h0 : m.allocFrame.1 ≠ 0 := hroom.resolve_left (by rw [hp]; decide)
    rcases borrowed_alloc hs hb with hfull | ⟨-, hnot, hlt, -, hb'⟩
    · exact absurd (congrArg Prod.fst hfull) h0
    · have hmade : TableMade m (m.mapPage virt phys flags) virt phys flags m.pmm.allocFrame.1 :=
        mapPage_absent hrec hu.word (by have := hu.inside; omega) hp h0 fun he =>
          hnot (by rw [← Machine.allocFrame_fst, he, h.loaded]; exact hSB h.dir)
      generalize m.mapPage virt phys flags = m' at *
      generalize m.pmm.allocFrame.1 = t at *
      have htS : t ∉ S := fun hm => hnot (hSB hm)
      have hpages : ∀ n, slot m d n ≠ some t := fun n hn => htS (h.page n t hn hlt).1
      -- the machine when the table is in place and the page is not
      generalize hm1 : withTable m (virt/4194304) t (entry t 7) = m1
      have hmem1 : ∀ f k, m1.mem f k = if f = d ∧ k = virt/4194304 then entry t 7
          else if f = t ∧ k < 1024 then 0 else m.mem f k := by
        intro f k
        rw [← hm1, ← h.loaded]
        rfl
      have hsp1 : SameSpace m m1 := by
        rw [← hm1]
        exact ⟨rfl, rfl⟩
      have h1 := shape_table h hu.inside (h.loaded ▸ hp) htS hlt hsp1 hmem1 hpages
      have htd : t ≠ d := fun he => htS (he ▸ h.dir)
      have ht1 : tableAt m1 d (virt/4194304) = some t := by
        have hw : m1.mem d (virt/4194304) = entry t 7 := by rw [hmem1, if_pos ⟨rfl, rfl⟩]
        rw [tableAt_of hu.inside (by rw [hw, present_entry _ (by decide)]; rfl)
          (by rw [hw, user_entry _ (by decide)]; rfl), hw, frameOf_entry _ (by decide)]
      have hz : m1.mem t (virt/4096%1024) = 0 := by
        rw [hmem1, if_neg fun hc => htd hc.1, if_pos ⟨rfl, Nat.mod_lt _ (by decide)⟩]
      have hnone : slot m1 d (virt/4096) = none := by
        rw [slot_table (t := t) (by rw [page_table, ht1]), hz]
        rfl
      refine ⟨{t}, Finset.disjoint_singleton_left.mpr hnot, ?_, ?_⟩
      · rw [Finset.union_singleton, hmade.pmm]
        exact hb'
      · rw [Finset.union_singleton]
        refine shape_put phys flags h1 ht1 (fun f hf => ?_) (fun hlt' => ?_)
          ⟨hmade.cr3.trans hsp1.1.symm, hmade.kernelDirectory.trans hsp1.2.symm⟩ fun f k => ?_
        · rw [hnone] at hf
          exact absurd hf (by simp)
        · rw [Finset.mem_insert, not_or]
          obtain ⟨hB, hS⟩ := hphys hlt'
          exact ⟨fun he => hnot (he ▸ hB), hS⟩
        · rw [hmade.mem, hmem1, huser, h.loaded]
          rfl

end MapPage

section Steps

variable {p₀ : Pmm} {d virt flags : ℕ} {S : Finset ℕ} {m : Machine}

/-- The account of an address space: its frames are those on loan. -/
def Straight (p₀ : Pmm) (d : ℕ) (m : Machine) : Prop :=
  ∃ S, Borrowed p₀ m.pmm S ∧ Shape p₀.maxFrames d S m

theorem alloc_fails (hs : Settled p₀) (hb : Borrowed p₀ m.pmm S) (h0 : m.allocFrame.1 = 0) :
    m.allocFrame.2 = m := by
  rcases borrowed_alloc hs hb with hfull | ⟨hne, -⟩
  · unfold Machine.allocFrame
    rw [hfull]
  · exact absurd h0 hne

/-- Without a frame for the table nothing is mapped. -/
theorem mapPage_skipped {phys : ℕ} (hs : Settled p₀) (hb : Borrowed p₀ m.pmm S)
    (h : Shape p₀.maxFrames d S m) (hu : UserPage m virt) (hroom : ¬ TableRoom m virt) :
    m.mapPage virt phys flags = m := by
  unfold TableRoom at hroom
  rw [not_or, not_not, Bool.not_eq_true] at hroom
  rw [mapPage_full (loaded_rec h) hu.word hroom.1 hroom.2, alloc_fails hs hb hroom.2]

theorem placed_fresh {N f : ℕ} (hlt : f < N) (S T : Finset ℕ) :
    placed N f (S ∪ T) = insert f S ∪ T := by
  rw [placed, if_pos hlt, Finset.insert_union]

/-- A fresh frame, filled or not, is mapped at a vacant page. -/
theorem fresh_placed (m₁ : Machine) (hs : Settled p₀) (hb : Borrowed p₀ m.pmm S)
    (h : Shape p₀.maxFrames d S m) (h0 : m.allocFrame.1 ≠ 0)
    (hspace : SameSpace m m₁) (hpmm : m₁.pmm = m.pmm.allocFrame.2)
    (hmem : ∀ g, g ≠ m.allocFrame.1 → m₁.mem g = m.mem g)
    (hu : UserPage m virt) (huser : user flags = true) (hvac : Vacant m virt)
    (hroom : TableRoom m.allocFrame.2 virt) :
    Straight p₀ d (m₁.mapPage virt m.allocFrame.1 flags) ∧
      slot (m₁.mapPage virt m.allocFrame.1 flags) d (virt/4096) = some m.allocFrame.1 := by
  rcases borrowed_alloc hs hb with hfull | ⟨-, hnot, hlt, -, hb'⟩
  · exact absurd (congrArg Prod.fst hfull) h0
  · rw [Machine.allocFrame_fst] at hmem ⊢
    generalize m.pmm.allocFrame.1 = f at *
    have hfd : f ≠ d := fun he => hnot (he ▸ h.dir)
    have hapart : f ≠ d ∧ ∀ i, tableAt m d i ≠ some f :=
      ⟨hfd, fun i hi => hnot (h.table i f hi).1⟩
    have h1 : Shape p₀.maxFrames d S m₁ := shape_frame h hapart hspace hmem
    have hdir : m₁.mem m₁.cr3 = m.mem m.cr3 := by
      rw [hspace.1]
      exact hmem _ (by rw [h.loaded]; exact hfd.symm)
    have hslot : ∀ n g, slot m₁ d n = some g → slot m d n = some g := by
      intro n g hg
      obtain ⟨t, ht⟩ := slot_some hg
      have htab : tableAt m₁ d (n/1024) = tableAt m d (n/1024) :=
        tableAt_congr (by rw [hmem d hfd.symm])
      have ht' : tableAt m d (n/1024) = some t := by rwa [htab] at ht
      rw [slot_table ht, hmem t fun he => hapart.2 _ (he ▸ ht')] at hg
      rw [slot_table ht', hg]
    have hu1 : UserPage m₁ virt := ⟨hu.word, hu.inside, by rw [hdir]; exact hu.entry⟩
    have hroom1 : TableRoom m₁ virt := by
      unfold TableRoom at hroom ⊢
      rw [hdir, Machine.allocFrame_fst, hpmm]
      exact hroom
    obtain ⟨T, -, hbT, hshape, hput⟩ := mapPage_placed f flags hs (hpmm ▸ hb') h1
      (Finset.subset_insert f S) hu1 huser
      (fun g hg => hb.maxFrames ▸ hvac g (by rw [h.loaded]; exact hslot _ g hg))
      (fun _ => ⟨Finset.mem_insert_self f S, hnot⟩) hroom1
    rw [placed_fresh hlt] at hshape
    exact ⟨⟨_, hbT, hshape⟩, hput⟩

theorem faultPage_straight (hs : Settled p₀) (h : Straight p₀ d m) (data : Option (ℕ → ℕ))
    (hu : UserPage m virt) (huser : user flags = true) (hvac : Vacant m virt)
    (hroom : m.allocFrame.1 ≠ 0 → TableRoom m.allocFrame.2 virt) :
    Straight p₀ d (m.faultPage virt flags data) := by
  obtain ⟨S, hb, hshape⟩ := h
  unfold Machine.faultPage
  by_cases h0 : m.allocFrame.1 = 0
  · simp only [if_pos h0, alloc_fails hs hb h0]
    exact ⟨S, hb, hshape⟩
  · simp only [if_neg h0]
    cases data with
    | none =>
      exact (fresh_placed m.allocFrame.2 hs hb hshape h0 ⟨rfl, rfl⟩ rfl
        (fun _ _ => rfl) hu huser hvac (hroom h0)).1
    | some words =>
      refine (fresh_placed (m.allocFrame.2.fill m.allocFrame.1 words) hs hb hshape h0
        ⟨rfl, rfl⟩ rfl (fun g hg => ?_) hu huser hvac (hroom h0)).1
      funext k
      exact if_neg fun hc => hg hc.1

/-- The words that the processor finds for a page of the address space. -/
theorem walk_slot {S : Finset ℕ} (h : Shape p₀.maxFrames d S m) {f : ℕ}
    (hf : slot m d (virt/4096) = some f) : frameOf (m.walk virt).2 = f ∧
      tableAt m d (virt/4194304) = some (frameOf (m.mem d (virt/4194304))) ∧
      present (m.walk virt).1 = true ∧ present (m.walk virt).2 = true := by
  obtain ⟨t, ht⟩ := slot_some hf
  rw [slot_table ht] at hf
  rw [page_table] at ht
  obtain ⟨-, hp, -, hft⟩ := tableAt_some ht
  split_ifs at hf with hpte
  rw [Machine.walk, h.loaded, hft]
  exact ⟨Option.some.inj hf, ht, hp, hpte⟩

theorem mmapPage_straight (hs : Settled p₀) (h : Straight p₀ d m) (hu : UserPage m virt)
    (huser : user flags = true) (hvac : Vacant m virt)
    (hroom : m.allocFrame.1 ≠ 0 → TableRoom m.allocFrame.2 virt) :
    Straight p₀ d (m.mmapPage virt flags) := by
  obtain ⟨S, hb, hshape⟩ := h
  unfold Machine.mmapPage
  by_cases h0 : m.allocFrame.1 = 0
  · simp only [if_pos h0, alloc_fails hs hb h0]
    exact ⟨S, hb, hshape⟩
  · simp only [if_neg h0]
    obtain ⟨⟨S', hb', hshape'⟩, hput⟩ := fresh_placed m.allocFrame.2 hs hb hshape h0
      ⟨rfl, rfl⟩ rfl (fun _ _ => rfl) hu huser hvac (hroom h0)
    generalize m.allocFrame.2.mapPage virt m.allocFrame.1 flags = m' at *
    split_ifs
    · obtain ⟨hw, -⟩ := walk_slot hshape' hput
      rw [hw]
      refine ⟨S', hb', shape_frame hshape' (page_apart hshape' hput) ⟨rfl, rfl⟩ fun g hg => ?_⟩
      funext k
      exact if_neg fun hc => hg hc.1
    · exact ⟨S', hb', hshape'⟩

theorem mapMmio_straight {frame : ℕ} (hs : Settled p₀) (h : Straight p₀ d m)
    (hu : UserPage m virt) (hvac : Vacant m virt) (hframe : m.pmm.maxFrames ≤ frame) :
    Straight p₀ d (m.mapPage virt frame 7) := by
  obtain ⟨S, hb, hshape⟩ := h
  rw [hb.maxFrames] at hframe
  by_cases hroom : TableRoom m virt
  · obtain ⟨T, -, hbT, hshapeT, -⟩ := mapPage_placed frame 7 hs hb hshape
      (Finset.Subset.refl S) hu rfl
      (fun g hg => hb.maxFrames ▸ hvac g (by rw [hshape.loaded]; exact hg))
      (fun hlt => absurd hframe (Nat.not_le.mpr hlt)) hroom
    rw [placed, if_neg (Nat.not_lt.mpr hframe)] at hshapeT
    exact ⟨_, hbT, hshapeT⟩
  · rw [mapPage_skipped hs hb hshape hu hroom]
    exact ⟨S, hb, hshape⟩

/-- What `get_physical` finds at an address of user pages. -/
theorem getPhysical_slot (h : Shape p₀.maxFrames d S m) (hu : UserPage m virt) :
    m.getPhysical virt = match slot m d (virt/4096) with
      | none => 0
      | some f => entry f (virt%4096) := by
  have hrec := loaded_rec h
  have hread : m.read (m.pdePtr (virt/4194304)) = m.mem d (virt/4194304) := by
    rw [read_pde hrec (by have := hu.inside; omega), h.loaded]
  have hentry := hu.entry
  rw [h.loaded] at hentry
  rw [Machine.getPhysical, hread]
  cases hp : present (m.mem d (virt/4194304)) with
  | false =>
    have hnone : tableAt m d (virt/4096/1024) = none := by
      rw [page_table, tableAt, if_neg fun hc => by rw [hp] at hc; exact absurd hc.2.1 (by decide)]
    rw [slot, pteAt, hnone]
    rfl
  | true =>
    have ht : tableAt m d (virt/4096/1024) = some (frameOf (m.mem d (virt/4194304))) := by
      rw [page_table]
      exact tableAt_of hu.inside hp (hentry hp)
    have hpte : m.read (m.ptePtr virt) =
        m.mem (frameOf (m.mem d (virt/4194304))) (virt/4096%1024) := by
      rw [ptePtr_table hrec, h.loaded]
      rfl
    rw [slot_table ht, hpte]
    cases present (m.mem (frameOf (m.mem d (virt/4194304))) (virt/4096%1024)) <;> rfl

theorem munmapPage_straight (hs : Settled p₀) (h : Straight p₀ d m) (hu : UserPage m virt) :
    Straight p₀ d (m.munmapPage virt) := by
  obtain ⟨S, hb, hshape⟩ := h
  have hphys := getPhysical_slot hshape hu
  unfold Machine.munmapPage
  rw [hphys]
  cases hf : slot m d (virt/4096) with
  | none => exact ⟨S, hb, hshape⟩
  | some f =>
    dsimp only
    split_ifs
    · exact ⟨S, hb, hshape⟩
    rw [frameOf_entry _ (Nat.mod_lt _ (by decide))]
    obtain ⟨-, ht, hp, -⟩ := walk_slot hshape hf
    have hun : m.unmapPage virt =
        m.write (frameOf (m.mem d (virt/4194304)), virt/4096%1024) 0 := by
      rw [unmapPage_present (loaded_rec hshape) (by have := hu.inside; omega) hp, hshape.loaded]
    have hold : slot m d (1024*(virt/4194304)+virt/4096%1024) = some f := by
      rw [← page_split]
      exact hf
    have hzero : present 0 = false := by decide
    have hkept : ∀ S' : Finset ℕ, (∀ g, g ∈ S' ↔ g ∈ S ∧ g ≠ f) →
        Shape p₀.maxFrames d S' ((m.unmapPage virt).freeFrame f) := by
      intro S' hS'
      rw [hun]
      refine shape_setPte hshape ht (Nat.mod_lt _ (by decide)) (w := 0) ⟨rfl, rfl⟩
        (fun _ _ => rfl) (fun g hg => hshape.inside g ((hS' g).mp hg).1) (fun g hg hne => ?_)
        (fun hc => absurd hc (by rw [hzero]; decide)) fun g hg => Or.inl ?_
      · exact (hS' g).mpr ⟨hg, fun he => hne (he ▸ hold)⟩
      · obtain ⟨hgS, hgf⟩ := (hS' g).mp hg
        exact ⟨hgS, fun hc => hgf (Option.some.inj (hc.symm.trans hold))⟩
    have hpmm : ((m.unmapPage virt).freeFrame f).pmm = m.pmm.freeFrame f := by
      rw [hun]
      rfl
    by_cases hlt : f < p₀.maxFrames
    · have hfS := (hshape.page _ f hf hlt).1
      refine ⟨S.erase f, ?_, hkept _ fun g => by rw [Finset.mem_erase]; tauto⟩
      rw [hpmm]
      exact borrowed_return hs hb hfS
    · refine ⟨S, ?_, hkept S fun g => ⟨fun hg => ⟨hg, fun he => hlt (he ▸ hshape.inside g hg)⟩,
        fun hg => hg.1⟩⟩
      rw [hpmm, freeFrame_foreign (by rw [hb.maxFrames]; omega)]
      exact hb

/-- A store of the process reaches one of its pages. -/
theorem store_straight {value : ℕ} {x : ℕ × ℕ} (h : Straight p₀ d m) (hw : virt < 4294967296)
    (hx : m.userAccess virt true = some x) : Straight p₀ d (m.write x value) := by
  obtain ⟨S, hb, hshape⟩ := h
  unfold Machine.userAccess at hx
  dsimp only at hx
  split_ifs at hx with hc
  simp only [Bool.and_eq_true] at hc
  obtain ⟨⟨⟨⟨hp1, hu1⟩, hp2⟩, -⟩, -⟩ := hc
  rw [← Option.some.inj hx]
  have hslot : slot m d (virt/4096) = some (frameOf (m.walk virt).2) := by
    rw [Machine.walk, hshape.loaded] at hp1 hu1 hp2
    have hi : virt/4194304 < 1023 := by
      by_contra hge
      have h3 : virt/4194304 = 1023 := by omega
      dsimp only at hu1
      rw [h3, hshape.recursive, user_entry _ (by decide)] at hu1
      exact absurd hu1 (by decide)
    have ht : tableAt m d (virt/4096/1024) = some (frameOf (m.mem d (virt/4194304))) := by
      rw [page_table]
      exact tableAt_of hi hp1 hu1
    rw [slot_table ht, if_pos hp2, Machine.walk, hshape.loaded]
  refine ⟨S, hb, shape_frame hshape (page_apart hshape hslot) ⟨rfl, rfl⟩ fun g hg => ?_⟩
  funext k
  exact if_neg fun hcc => hg hcc.1

theorem act_straight (hs : Settled p₀) (h : Straight p₀ d m) (a : Act) (ha : a.Balanced m) :
    Straight p₀ d (a.run m) := by
  cases a with
  | record room =>
    obtain rfl : room = true := ha
    exact h
  | mmap virt protWrite =>
    obtain ⟨hu, hvac, hroom⟩ := ha
    refine mmapPage_straight hs h hu ?_ hvac hroom
    unfold mmapFlags
    split_ifs <;> decide
  | fault virt flags data =>
    obtain ⟨hu, hvac, huser, hroom⟩ := ha
    exact faultPage_straight hs h data hu huser hvac hroom
  | mapMmio virt frame => exact mapMmio_straight hs h ha.1 ha.2.1 ha.2.2
  | munmap virt => exact munmapPage_straight hs h ha
  | sbrk virt =>
    change Straight p₀ d (m.sbrkPage virt)
    rw [CowRefinement.sbrkPage_eq]
    exact munmapPage_straight hs h ha
  | store virt value =>
    change Straight p₀ d (match m.userAccess virt true with
      | some p => m.write p value
      | none => m)
    cases hx : m.userAccess virt true with
    | none => exact h
    | some x => exact store_straight h ha hx

theorem acts_straight (hs : Settled p₀) (acts : List Act) (h : Straight p₀ d m)
    (ha : BalancedRun acts m) : Straight p₀ d (acts.foldl Act.run m) := by
  induction acts generalizing m with
  | nil => exact h
  | cons a acts ih => exact ih (act_straight hs h a ha.1) ha.2

end Steps

section Teardown

variable {p₀ : Pmm} {d : ℕ} {S : Finset ℕ} {m : Machine}

def freeAll (m : Machine) (L : List ℕ) : Machine := { m with pmm := L.foldl Pmm.freeFrame m.pmm }

theorem freeAll_append (m : Machine) (L L' : List ℕ) :
    freeAll m (L++L') = freeAll (freeAll m L) L' := by
  simp only [freeAll, List.foldl_append]

def pageFrame (m : Machine) (pt j : ℕ) : Option ℕ :=
  if present (m.mem pt j) then some (frameOf (m.mem pt j)) else none

/-- The frames that go with entry `i` of a directory: pages first. -/
def entryFrames (m : Machine) (d i : ℕ) : List ℕ :=
  match tableAt m d i with
  | none => []
  | some t => (List.range 1024).filterMap (pageFrame m t)++[t]

def heldFrames (m : Machine) (d : ℕ) : List ℕ :=
  (List.range 1023).flatMap (entryFrames m d)++[d]

theorem releaseTable_eq (m : Machine) (pt : ℕ) :
    m.releaseTable pt = freeAll m ((List.range 1024).filterMap (pageFrame m pt)) := by
  have hloop : ∀ (js : List ℕ) (m' : Machine), m'.mem = m.mem → js.foldl (fun m j =>
      if present (m.mem pt j) then m.decRef (frameOf (m.mem pt j)) else m) m' =
      freeAll m' (js.filterMap (pageFrame m pt)) := by
    intro js
    induction js with
    | nil => exact fun _ _ => rfl
    | cons j js ih =>
      intro m' hm
      rw [List.foldl_cons, hm]
      cases hp : present (m.mem pt j) with
      | false =>
        rw [List.filterMap_cons_none (by rw [pageFrame, hp]; rfl)]
        exact ih m' hm
      | true =>
        rw [List.filterMap_cons_some (b := frameOf (m.mem pt j)) (by rw [pageFrame, hp]; rfl),
          if_pos rfl, ih (m'.decRef (frameOf (m.mem pt j))) hm, Machine.decRef, decRef_eq]
        rfl
  exact hloop (List.range 1024) m rfl

theorem releaseEntry_eq {m' : Machine} (hm : m'.mem = m.mem) {i : ℕ} (hi : i < 1023) :
    m'.releaseEntry d i = freeAll m' (entryFrames m d i) := by
  have hne : i ≠ 1023 := hi.ne
  unfold Machine.releaseEntry entryFrames
  rw [if_neg hne, hm]
  cases ht : tableAt m d i with
  | none =>
    unfold tableAt at ht
    split_ifs at ht with hc
    cases hp : present (m.mem d i) with
    | false => rfl
    | true =>
      cases hu : user (m.mem d i) with
      | false => rfl
      | true => exact absurd ⟨hi, hp, hu⟩ hc
  | some t =>
    obtain ⟨-, hp, hu, rfl⟩ := tableAt_some ht
    have hframes : pageFrame m' (frameOf (m.mem d i)) = pageFrame m (frameOf (m.mem d i)) := by
      funext j
      rw [pageFrame, pageFrame, hm]
    rw [hp, hu, releaseTable_eq, hframes, freeAll_append]
    generalize (List.range 1024).filterMap (pageFrame m (frameOf (m.mem d i))) = L
    rfl

theorem destroy_eq (h0 : d ≠ 0) (hk : d ≠ m.kernelDirectory) :
    m.destroyAddressSpace d = freeAll m (heldFrames m d) := by
  have hloop : ∀ (is : List ℕ) (m' : Machine), (∀ i ∈ is, i < 1023) → m'.mem = m.mem →
      is.foldl (fun m i => m.releaseEntry d i) m' = freeAll m' (is.flatMap (entryFrames m d)) := by
    intro is
    induction is with
    | nil => exact fun _ _ _ => rfl
    | cons i is ih =>
      intro m' hi hm
      have hrest := ih (freeAll m' (entryFrames m d i))
        (fun k hk => hi k (List.mem_cons_of_mem _ hk)) hm
      rw [List.foldl_cons, releaseEntry_eq hm (hi i List.mem_cons_self), hrest,
        List.flatMap_cons, freeAll_append]
  have hall := hloop (List.range 1023) m (fun i hi => List.mem_range.mp hi) rfl
  rw [destroyAddressSpace_eq h0 hk, hall, heldFrames, freeAll_append]
  generalize (List.range 1023).flatMap (entryFrames m d) = L
  rfl

theorem slot_page {i t j : ℕ} (ht : tableAt m d i = some t) (hj : j < 1024) :
    slot m d (1024*i+j) = pageFrame m t j := by
  have h1 : (1024*i+j)/1024 = i := by omega
  have h2 : (1024*i+j)%1024 = j := by omega
  rw [slot_table (t := t) (by rw [h1, ht]), h2, pageFrame]

theorem mem_entryFrames {i f : ℕ} : f ∈ entryFrames m d i ↔
    tableAt m d i = some f ∨ ∃ j < 1024, slot m d (1024*i+j) = some f := by
  unfold entryFrames
  cases ht : tableAt m d i with
  | none =>
    simp only [List.not_mem_nil, false_iff, not_or, not_exists, not_and]
    refine ⟨by simp, fun j hj hs => ?_⟩
    obtain ⟨t, ht'⟩ := slot_some hs
    rw [show (1024*i+j)/1024 = i by omega, ht] at ht'
    exact absurd ht' (by simp)
  | some t =>
    simp only [List.mem_append, List.mem_filterMap, List.mem_range, List.mem_singleton,
      Option.some.injEq]
    constructor
    · rintro (⟨j, hj, hf⟩ | rfl)
      · exact Or.inr ⟨j, hj, (slot_page ht hj).trans hf⟩
      · exact Or.inl rfl
    · rintro (rfl | ⟨j, hj, hs⟩)
      · exact Or.inr rfl
      · exact Or.inl ⟨j, hj, (slot_page ht hj).symm.trans hs⟩

theorem entryFrames_nodup {N i t : ℕ} (h : Shape N d S m) (ht : tableAt m d i = some t) :
    (((List.range 1024).filterMap (pageFrame m t)++[t]).filter (· < N)).Nodup := by
  have hslot : ∀ j < 1024, pageFrame m t j = slot m d (1024*i+j) := fun j hj =>
    (slot_page ht hj).symm
  rw [List.filter_append]
  refine List.nodup_append'.mpr ⟨?_, (List.nodup_singleton t).filter _, ?_⟩
  · generalize hL : List.range 1024 = L
    have hin : ∀ j ∈ L, j < 1024 := fun j hj => List.mem_range.mp (hL ▸ hj)
    have hnodup : L.Nodup := hL ▸ List.nodup_range
    clear hL
    induction L with
    | nil => exact List.nodup_nil
    | cons j L ih =>
      obtain ⟨hj, hnodup⟩ := List.nodup_cons.mp hnodup
      have hrest := ih (fun k hk => hin k (List.mem_cons_of_mem _ hk)) hnodup
      cases hf : pageFrame m t j with
      | none => rwa [List.filterMap_cons_none hf]
      | some f =>
        rw [List.filterMap_cons_some hf]
        by_cases hlt : f < N
        · rw [List.filter_cons_of_pos (by simpa using hlt)]
          refine List.nodup_cons.mpr ⟨fun hm => ?_, hrest⟩
          obtain ⟨k, hk, hkf⟩ := List.mem_filterMap.mp (List.mem_filter.mp hm).1
          rw [hslot j (hin j List.mem_cons_self)] at hf
          rw [hslot k (hin k (List.mem_cons_of_mem _ hk))] at hkf
          have := h.pages _ _ f hf hkf hlt
          obtain rfl : j = k := by omega
          exact hj hk
        · rwa [List.filter_cons_of_neg (by simpa using hlt)]
  · intro f hf hf'
    obtain ⟨j, hj, hjf⟩ := List.mem_filterMap.mp (List.mem_filter.mp hf).1
    obtain rfl := List.mem_singleton.mp (List.mem_filter.mp hf').1
    rw [hslot j (List.mem_range.mp hj)] at hjf
    exact (page_apart h hjf).2 i ht

/-- A managed frame is given back once. -/
theorem heldFrames_nodup {N : ℕ} (h : Shape N d S m) :
    ((heldFrames m d).filter (· < N)).Nodup := by
  have hheld : ∀ i, ∀ f ∈ (entryFrames m d i).filter (· < N), f < N ∧
      (tableAt m d i = some f ∨ ∃ j < 1024, slot m d (1024*i+j) = some f) := by
    intro i f hf
    obtain ⟨hmem, hlt⟩ := List.mem_filter.mp hf
    exact ⟨by simpa using hlt, mem_entryFrames.mp hmem⟩
  have hentry : ∀ i, ((entryFrames m d i).filter (· < N)).Nodup := by
    intro i
    unfold entryFrames
    cases ht : tableAt m d i with
    | none => exact List.nodup_nil
    | some t => exact entryFrames_nodup h ht
  rw [heldFrames, List.filter_append, List.filter_flatMap]
  refine List.nodup_append'.mpr ⟨List.nodup_flatMap.mpr ⟨fun i _ => hentry i, ?_⟩,
    (List.nodup_singleton d).filter _, ?_⟩
  · refine (List.nodup_range).imp fun {i k} hik => ?_
    intro f hf hf'
    obtain ⟨hlt, hi⟩ := hheld i f hf
    obtain ⟨-, hk⟩ := hheld k f hf'
    rcases hi with hi | ⟨j, hj, hi⟩ <;> rcases hk with hk | ⟨j', hj', hk⟩
    · exact hik (h.tables i k f hi hk)
    · exact (page_apart h hk).2 i hi
    · exact (page_apart h hi).2 k hk
    · have := h.pages _ _ f hi hk hlt
      omega
  · intro f hf hf'
    obtain ⟨i, -, hi⟩ := List.mem_flatMap.mp hf
    obtain rfl := List.mem_singleton.mp (List.mem_filter.mp hf').1
    rcases (hheld i f hi).2 with hi | ⟨j, -, hi⟩
    · exact (h.table i f hi).2 rfl
    · exact (page_apart h hi).1 rfl

theorem slot_entry {n f : ℕ} (h : slot m d n = some f) : ∃ i < 1023,
    tableAt m d i = some f ∨ ∃ j < 1024, slot m d (1024*i+j) = some f := by
  obtain ⟨t, ht⟩ := slot_some h
  refine ⟨n/1024, (tableAt_some ht).1, Or.inr ⟨n%1024, Nat.mod_lt _ (by decide), ?_⟩⟩
  rwa [Nat.div_add_mod]

theorem mem_held {f : ℕ} : f ∈ heldFrames m d ↔ (∃ i < 1023, tableAt m d i = some f ∨
    ∃ j < 1024, slot m d (1024*i+j) = some f) ∨ f = d := by
  simp only [heldFrames, List.mem_append, List.mem_flatMap, List.mem_range, List.mem_singleton,
    mem_entryFrames]

theorem mem_heldFrames {N f : ℕ} (h : Shape N d S m) (hf : f < N) : f ∈ heldFrames m d ↔ f ∈ S := by
  rw [mem_held]
  constructor
  · rintro (⟨i, -, ht | ⟨j, -, hs⟩⟩ | rfl)
    · exact (h.table i f ht).1
    · exact (h.page _ f hs hf).1
    · exact h.dir
  · intro hS
    rcases h.all f hS with hd | ⟨i, hi⟩ | ⟨n, hn⟩
    · exact Or.inr hd
    · exact Or.inl ⟨i, (tableAt_some hi).1, Or.inl hi⟩
    · exact Or.inl (slot_entry hn)

end Teardown

section Lives

variable {p₀ : Pmm} {d : ℕ} {m : Machine}

/-- What the directory of the kernel and the manager look like when a life begins. -/
structure Ready (m : Machine) : Prop where
  settled : Settled m.pmm
  recursive : m.mem m.cr3 1023 = entry m.cr3 3
  loaded : m.pmm.memoryBitmap m.cr3 = true
  kernel : m.pmm.memoryBitmap m.kernelDirectory = true

/-- A new directory has entries of the kernel only. -/
theorem shape_create {m' : Machine} (hlt : d < p₀.maxFrames) (hk : m'.kernelDirectory ≠ d)
    (hcr3 : m'.cr3 = d) (hwords : ∀ k < 1023, m'.mem d k = sharedWord m k)
    (hrec : m'.mem d 1023 = entry d 3) : Shape p₀.maxFrames d {d} m' := by
  have htab : ∀ i, tableAt m' d i = none := by
    intro i
    rw [tableAt, if_neg]
    rintro ⟨hi, hp, hu⟩
    rw [hwords i hi, sharedWord] at hp hu
    split_ifs at hp hu with hc
    · rw [hc.2.2] at hu
      exact absurd hu (by decide)
    · exact absurd hp (by decide)
  have hslot : ∀ n, slot m' d n = none := by
    intro n
    rw [slot, pteAt, htab]
    rfl
  refine ⟨hcr3, hk, hrec, fun f hf => ?_, Finset.mem_singleton_self d, ?_, ?_, ?_, ?_,
    fun f hf => Or.inl (Finset.mem_singleton.mp hf)⟩
  · rwa [Finset.mem_singleton.mp hf]
  all_goals simp [htab, hslot]

theorem created (h : Ready m) (h0 : m.createAddressSpace.1 ≠ 0) :
    m.createAddressSpace.1 = m.allocFrame.1 ∧ m.allocFrame.1 ≠ m.kernelDirectory ∧
      m.createAddressSpace.2.pmm = m.pmm.allocFrame.2 ∧ SameSpace m m.createAddressSpace.2 ∧
      (∀ k < 1023, m.createAddressSpace.2.mem m.allocFrame.1 k = sharedWord m k) ∧
      m.createAddressSpace.2.mem m.allocFrame.1 1023 = entry m.allocFrame.1 3 ∧
      m.allocFrame.1 < m.pmm.maxFrames ∧ Borrowed m.pmm m.pmm.allocFrame.2 {m.allocFrame.1} := by
  have ha : m.allocFrame.1 ≠ 0 := fun he => h0 (by rw [createAddressSpace_full he])
  rcases borrowed_alloc h.settled (borrowed_start h.settled) with hfull | ⟨-, -, hlt, hbit, hb⟩
  · exact absurd (congrArg Prod.fst hfull) ha
  · rw [← Machine.allocFrame_fst] at hlt hbit
    have hne : ∀ {f}, m.pmm.memoryBitmap f = true → m.allocFrame.1 ≠ f := fun hf he => by
      rw [he, hf] at hbit
      exact absurd hbit (by decide)
    have hl : Loaded AddressSpaces.Base.free (fun _ => True) m :=
      ⟨h.recursive, fun _ _ _ _ => ⟨trivial, fun _ hc => hc⟩, fun _ _ hw => nomatch hw⟩
    obtain ⟨hfst, hpmm, hspace, -, hwords, hrec⟩ := createAddressSpace_spec hl (hne h.loaded) ha
    exact ⟨hfst, hne h.kernel, hpmm, hspace, hwords, hrec, hlt, hb⟩

theorem create_straight (h : Ready m) (h0 : m.createAddressSpace.1 ≠ 0) :
    Straight m.pmm m.createAddressSpace.1
      (m.createAddressSpace.2.switchAddressSpace m.createAddressSpace.1) := by
  obtain ⟨hfst, hk, hpmm, hspace, hwords, hrec, hlt, hb⟩ := created h h0
  rw [hfst]
  refine ⟨{m.allocFrame.1}, ?_, ?_⟩
  · change Borrowed m.pmm m.createAddressSpace.2.pmm _
    rw [hpmm]
    exact hb
  · refine shape_create hlt ?_ rfl hwords hrec
    change m.createAddressSpace.2.kernelDirectory ≠ _
    rw [hspace.2]
    exact hk.symm

/-- The frames of a directory come back with it, whichever directory is loaded. -/
theorem destroy_straight (hs : Settled p₀) (h : Straight p₀ d m) (other : ℕ) :
    Borrowed p₀ ((m.switchAddressSpace other).destroyAddressSpace d).pmm ∅ := by
  obtain ⟨S, hb, hshape⟩ := h
  have h0 : d ≠ 0 := fun he => borrowed_null hs hb (he ▸ hshape.dir)
  have heq : (m.switchAddressSpace other).destroyAddressSpace d =
      freeAll (m.switchAddressSpace other) (heldFrames m d) := destroy_eq h0 hshape.kernel.symm
  have hmem : ∀ f ∈ S, f ∈ heldFrames m d := fun f hf =>
    (mem_heldFrames hshape (hshape.inside f hf)).mpr hf
  have hback := borrowed_returnAll hs (heldFrames m d) hb (heldFrames_nodup hshape)
    fun f hf hlt => (mem_heldFrames hshape hlt).mp hf
  rw [heq]
  generalize heldFrames m d = L at hmem hback
  rw [Finset.sdiff_eq_empty_iff_subset.mpr fun f hf => List.mem_toFinset.mpr (hmem f hf)] at hback
  exact hback

/-- A balanced life takes nothing with it. -/
theorem life_conserves (h : Ready m) (acts : List Act)
    (hacts : m.createAddressSpace.1 ≠ 0 → BalancedRun acts
      (m.createAddressSpace.2.switchAddressSpace m.createAddressSpace.1)) :
    (life m acts).pmm.memoryBitmap = m.pmm.memoryBitmap ∧
    (life m acts).pmm.refcounts = m.pmm.refcounts ∧
    (life m acts).pmm.usedFrames = m.pmm.usedFrames := by
  unfold life
  by_cases h0 : m.createAddressSpace.1 = 0
  · dsimp only
    rw [if_pos h0]
    have ha : m.allocFrame.1 = 0 := by
      by_contra ha
      exact ha ((createAddressSpace_fst ha).symm.trans h0)
    rw [createAddressSpace_full ha, alloc_fails h.settled (borrowed_start h.settled) ha]
    exact ⟨rfl, rfl, rfl⟩
  · dsimp only
    rw [if_neg h0]
    have hrun := acts_straight h.settled acts (create_straight h h0) (hacts h0)
    exact borrowed_end h.settled (destroy_straight h.settled hrun m.cr3)

/-- A page without a table. -/
theorem untouched_page {virt : ℕ} (hw : virt < 4294967296) (hi : virt/4194304 < 1023)
    (hz : m.mem m.cr3 (virt/4194304) = 0) : UserPage m virt ∧ Vacant m virt := by
  have hzero : present 0 = false := by decide
  refine ⟨⟨hw, hi, fun hp => ?_⟩, fun f hf => ?_⟩
  · rw [hz, hzero] at hp
    exact absurd hp (by decide)
  · obtain ⟨t, ht⟩ := slot_some hf
    rw [page_table] at ht
    obtain ⟨-, hp, -⟩ := tableAt_some ht
    rw [hz, hzero] at hp
    exact absurd hp (by decide)

/-- A page of an untouched table, mapped and written. -/
theorem balanced_page {virt value : ℕ} (h : Ready m) (hw : virt < 4294967296)
    (hi : virt/4194304 < 1023) (hz : sharedWord m (virt/4194304) = 0)
    (hroom : m.pmm.allocFrame.2.allocFrame.2.allocFrame.1 ≠ 0) (h0 : m.createAddressSpace.1 ≠ 0) :
    BalancedRun [.record true, .mmap virt true, .store virt value]
      (m.createAddressSpace.2.switchAddressSpace m.createAddressSpace.1) := by
  obtain ⟨hfst, -, hpmm, -, hwords, -⟩ := created h h0
  rw [hfst]
  generalize m.createAddressSpace.2 = r at *
  obtain ⟨hu, hvac⟩ := untouched_page (m := r.switchAddressSpace m.allocFrame.1) hw hi
    ((hwords _ hi).trans hz)
  refine ⟨rfl, ⟨hu, hvac, fun _ => Or.inr ?_⟩, hw, trivial⟩
  change (r.pmm.allocFrame.2).allocFrame.1 ≠ 0
  rw [hpmm]
  exact hroom

theorem ready_start : Ready kernelStart := by
  refine ⟨⟨by decide, fun f _ hf => ?_, by decide⟩, rfl, by decide, by decide⟩
  have hge : ¬f < 10 := of_decide_eq_false hf
  exact if_neg hge

/-- A page is mapped and written, and the process exits. -/
theorem life_conserves_page : (life kernelStart
      [.record true, .mmap 0x40000000 true, .store 0x40000000 5]).pmm.memoryBitmap =
        kernelStart.pmm.memoryBitmap ∧
    (life kernelStart
      [.record true, .mmap 0x40000000 true, .store 0x40000000 5]).pmm.refcounts =
        kernelStart.pmm.refcounts ∧
    (life kernelStart
      [.record true, .mmap 0x40000000 true, .store 0x40000000 5]).pmm.usedFrames =
        kernelStart.pmm.usedFrames :=
  life_conserves ready_start _ (balanced_page ready_start (by decide) (by decide) (by decide)
    (by decide +kernel))

/-- What `map_page` puts at a page of an untouched table. -/
theorem mapped_slot {virt flags : ℕ} (phys : ℕ) (hrec : frameOf (m.mem m.cr3 1023) = m.cr3)
    (hv : virt < 4294967296) (hi : virt/4194304 < 1023)
    (hp : present (m.mem m.cr3 (virt/4194304)) = false) (h0 : m.allocFrame.1 ≠ 0)
    (hne : m.allocFrame.1 ≠ m.cr3) (hu : user flags = true) :
    slot (m.mapPage virt phys flags) m.cr3 (virt/4096) = some phys := by
  have hmade : TableMade m (m.mapPage virt phys flags) virt phys flags m.allocFrame.1 :=
    mapPage_absent hrec hv hi.ne hp h0 hne
  generalize m.mapPage virt phys flags = m' at *
  generalize m.allocFrame.1 = t at *
  obtain ⟨hpres, hframe⟩ := present_page phys flags
  have hpde : m'.mem m.cr3 (virt/4194304) = entry t 7 := by
    rw [hmade.mem, if_neg fun hc => hne hc.1.symm, if_pos ⟨rfl, rfl⟩, hu]
    rfl
  have ht : tableAt m' m.cr3 (virt/4194304) = some t := by
    rw [tableAt_of hi (by rw [hpde, present_entry _ (by decide)]; rfl)
      (by rw [hpde, user_entry _ (by decide)]; rfl), hpde, frameOf_entry _ (by decide)]
  have hpte : m'.mem t (virt/4096%1024) = entry phys ((flags%4096) ||| 1) := by
    rw [hmade.mem, if_pos ⟨rfl, rfl⟩]
  rw [slot_table (t := t) (by rw [page_table, ht]), hpte, if_pos hpres, hframe]

theorem returnAll_free {p : Pmm} {f : ℕ} (L : List ℕ) (hlt : f < p.maxFrames)
    (h : p.memoryBitmap f = false ∨ f ∈ L) (hrc : p.refcounts f ≤ 1) :
    (L.foldl Pmm.freeFrame p).memoryBitmap f = false := by
  induction L generalizing p with
  | nil => exact h.resolve_right (by simp)
  | cons g L ih =>
    rw [List.foldl_cons]
    refine ih (by rwa [freeFrame_maxFrames]) ?_ ?_
    · by_cases hfg : f = g
      · exact Or.inl (hfg ▸ (freeFrame_last p hlt hrc).1)
      · rw [(freeFrame_same p hfg).1]
        exact h.imp_right fun hm => (List.mem_cons.mp hm).resolve_left hfg
    · by_cases hfg : f = g
      · rw [← hfg, (freeFrame_last p hlt hrc).2]
        exact Nat.zero_le 1
      · rw [(freeFrame_same p hfg).2]
        exact hrc

/-- The frame of a device below the end of memory is freed with the directory. -/
theorem device_freed {virt frame : ℕ} (h : Ready m) (hv : virt < 4294967296)
    (hi : virt/4194304 < 1023) (hz : sharedWord m (virt/4194304) = 0)
    (h0 : m.createAddressSpace.1 ≠ 0) (hroom : m.pmm.allocFrame.2.allocFrame.1 ≠ 0)
    (hlt : frame < m.pmm.maxFrames) (hbit : m.pmm.memoryBitmap frame = true)
    (hrc : m.pmm.refcounts frame ≤ 1) :
    (life m [.mapMmio virt frame]).pmm.memoryBitmap frame = false := by
  obtain ⟨hfst, hk, hpmm, hspace, hwords, hrec, -, hb⟩ := created h h0
  rw [hfst] at h0
  unfold life
  dsimp only
  rw [hfst, if_neg h0, List.foldl_cons, List.foldl_nil]
  generalize m.createAddressSpace.2 = r at *
  generalize m.allocFrame.1 = d at *
  have hkernel : r.kernelDirectory ≠ d := hspace.2 ▸ hk.symm
  -- the machine that runs the process
  generalize hr' : r.switchAddressSpace d = r'
  have hcr3 : r'.cr3 = d := by rw [← hr']; rfl
  have hpmm' : r'.pmm = m.pmm.allocFrame.2 := by rw [← hr', ← hpmm]; rfl
  have hmem' : r'.mem = r.mem := by rw [← hr']; rfl
  have hk' : r'.kernelDirectory = r.kernelDirectory := by rw [← hr']; rfl
  rw [← hpmm'] at hb hroom
  rcases borrowed_alloc h.settled hb with hfull | ⟨-, hnot, -, -, hb2⟩
  · exact absurd (congrArg Prod.fst hfull) hroom
  · have hne : r'.allocFrame.1 ≠ r'.cr3 := fun he =>
      hnot (Finset.mem_singleton.mpr (he.trans hcr3))
    have hrec' : r'.mem r'.cr3 1023 = entry r'.cr3 3 := by rw [hcr3, hmem', hrec]
    have hpde : r'.mem r'.cr3 (virt/4194304) = 0 := by rw [hcr3, hmem', hwords _ hi, hz]
    have hp : present (r'.mem r'.cr3 (virt/4194304)) = false := by rw [hpde]; decide
    have hloop : frameOf (r'.mem r'.cr3 1023) = r'.cr3 := by rw [hrec', frameOf_entry _ (by decide)]
    have hslot : slot (r'.mapPage virt frame 7) r'.cr3 (virt/4096) = some frame :=
      mapped_slot frame hloop hv hi hp hroom hne rfl
    have hmade : TableMade r' (r'.mapPage virt frame 7) virt frame 7 r'.allocFrame.1 :=
      mapPage_absent hloop hv hi.ne hp hroom hne
    change (((r'.mapPage virt frame 7).switchAddressSpace m.cr3).destroyAddressSpace d).pmm.memoryBitmap
      frame = false
    have hpmm2 : (r'.mapPage virt frame 7).pmm = r'.pmm.allocFrame.2 := hmade.pmm
    have hk2 : (r'.mapPage virt frame 7).kernelDirectory = r'.kernelDirectory :=
      hmade.kernelDirectory
    rw [hcr3] at hslot
    generalize r'.mapPage virt frame 7 = r2 at *
    have heq : (r2.switchAddressSpace m.cr3).destroyAddressSpace d =
        freeAll (r2.switchAddressSpace m.cr3) (heldFrames r2 d) :=
      destroy_eq h0 (by rw [← hk'] at hkernel; exact fun he => hkernel (hk2.symm.trans he.symm))
    have hheld : frame ∈ heldFrames r2 d := mem_held.mpr (Or.inl (slot_entry hslot))
    rw [heq]
    generalize heldFrames r2 d = L at *
    have hsame : Same m.pmm r2.pmm frame := by
      rw [hpmm2]
      refine hb2.others frame fun hm => ?_
      have := (hb2.taken frame hm).1
      rw [hbit] at this
      exact absurd this (by decide)
    refine returnAll_free L ?_ (Or.inr hheld) ?_
    · change frame < r2.pmm.maxFrames
      rw [hpmm2, hb2.maxFrames]
      exact hlt
    · change r2.pmm.refcounts frame ≤ 1
      rw [hsame.2]
      exact hrc

/-- A machine whose first megabyte is not for the manager to hand out. -/
def deviceStart : Machine :=
  { kernelStart with
    pmm := ⟨fun f => decide (f < 256), 8192, 256, fun f => if f < 10 then 1 else 0⟩ }

theorem ready_device : Ready deviceStart := by
  refine ⟨⟨by decide, fun f _ hf => ?_, by decide⟩, rfl, by decide, by decide⟩
  have hge : ¬f < 256 := of_decide_eq_false hf
  exact if_neg (by omega)

/-- Text memory is mapped and the process exits. -/
theorem life_frees_device : deviceStart.pmm.memoryBitmap 184 = true ∧
    (life deviceStart [.mapMmio 0x40000000 184]).pmm.memoryBitmap 184 = false :=
  ⟨rfl, device_freed ready_device (by decide) (by decide) (by decide) (by decide +kernel)
    (by decide +kernel) (by decide) rfl (by decide)⟩

end Lives

end Vlsmc.ProcessMemory
