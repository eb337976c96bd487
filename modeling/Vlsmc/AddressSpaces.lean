import Vlsmc.CowClone
import Vlsmc.FrameHolders

/-!
# Live address spaces

The directories that are in use, the tables of user pages below them and the
tables of the kernel, which every directory shares by copying entries without
`PAGE_USER`. The invariant keeps the tables of user pages apart; what it takes to
keep it is said for the single writes that the code is made of.
-/

set_option autoImplicit false

namespace Vlsmc.AddressSpaces
open Vlsmc.Words Vlsmc.SharedFrames Vlsmc.PhysicalMemory Vlsmc.FrameHolders Vlsmc.Paging
open Vlsmc.CowClone

/-- What stays as it is: the contents of some tables of the kernel, and the entries
that every directory has in common. -/
structure Base where
  fixed : ℕ → Prop
  image : ℕ → ℕ → ℕ
  low : ℕ → Option ℕ

/-- Nothing has to stay. -/
def Base.free : Base := ⟨fun _ => False, fun _ _ => 0, fun _ => none⟩

/-- The frame of every page of the live directories. `G` are the pages of
directories that are being torn down. -/
def slots (G : ℕ × ℕ → Option ℕ) (dirs : Finset ℕ) (m : Machine) (x : ℕ × ℕ) : Option ℕ :=
  if x.1 ∈ dirs then (pteAt m x.1 x.2).map frameOf else G x

/-- The frames of the kernel: those in `R`, the directories and their tables. -/
def Own (R : ℕ → Prop) (dirs : Finset ℕ) (m : Machine) (t : ℕ) : Prop :=
  R t ∨ t ∈ dirs ∨ ∃ d ∈ dirs, ∃ i, tableAt m d i = some t

structure Private (b : Base) (R : ℕ → Prop) (G : ℕ × ℕ → Option ℕ) (dirs : Finset ℕ)
    (m : Machine) : Prop where
  inside : ∀ t, Own R dirs m t → t < m.pmm.maxFrames
  dir : ∀ d ∈ dirs, d ≠ 0 ∧ ¬R d
  table : ∀ d ∈ dirs, ∀ i t, tableAt m d i = some t → ¬R t ∧ t ∉ dirs
  tables : ∀ d ∈ dirs, ∀ d' ∈ dirs, ∀ i i' t, tableAt m d i = some t → tableAt m d' i' = some t →
    d = d' ∧ i = i'
  shared : ∀ d ∈ dirs, ∀ i < 1023, present (m.mem d i) = true → user (m.mem d i) = false →
    R (frameOf (m.mem d i)) ∧ (b.low i = none → ¬b.fixed (frameOf (m.mem d i)))
  kernel : ∀ t, b.fixed t → R t ∧ m.mem t = b.image t
  covered : Covered m.pmm (slots G dirs m) (Own R dirs m)

/-- The entries that every finished directory has. -/
structure Complete (b : Base) (dirs : Finset ℕ) (m : Machine) : Prop where
  recursive : ∀ d ∈ dirs, m.mem d 1023 = entry d 3
  low : ∀ d ∈ dirs, ∀ i w, b.low i = some w → m.mem d i = w

variable {b : Base} {R : ℕ → Prop} {G G' : ℕ × ℕ → Option ℕ} {dirs : Finset ℕ} {m m' : Machine}
variable {d i t : ℕ}

theorem not_fixed_of_table (h : Private b R G dirs m) (hd : d ∈ dirs)
    (ht : tableAt m d i = some t) : ¬b.fixed t := fun hf =>
  (h.table d hd i t ht).1 (h.kernel t hf).1

theorem slots_dir (hd : d ∈ dirs) (n : ℕ) : slots G dirs m (d, n) = (pteAt m d n).map frameOf :=
  if_pos hd

/-- No page of the processes lies in a frame of the kernel. -/
theorem not_own_of_slot (h : Private b R G dirs m) {x : ℕ × ℕ} {f : ℕ}
    (hx : slots G dirs m x = some f) : ¬Own R dirs m f := h.covered.apart x f hx

theorem own_congr (htab : ∀ d ∈ dirs, ∀ i, tableAt m' d i = tableAt m d i) (t : ℕ) :
    Own R dirs m' t ↔ Own R dirs m t := by
  unfold Own
  constructor
  · rintro (hr | hd | ⟨d, hd, i, hi⟩)
    · exact Or.inl hr
    · exact Or.inr (Or.inl hd)
    · exact Or.inr (Or.inr ⟨d, hd, i, htab d hd i ▸ hi⟩)
  · rintro (hr | hd | ⟨d, hd, i, hi⟩)
    · exact Or.inl hr
    · exact Or.inr (Or.inl hd)
    · exact Or.inr (Or.inr ⟨d, hd, i, (htab d hd i).trans hi⟩)

theorem tableAt_same (hdir : ∀ d ∈ dirs, ∀ k < 1023, m'.mem d k = m.mem d k) (hd : d ∈ dirs)
    (i : ℕ) : tableAt m' d i = tableAt m d i := by
  by_cases hi : i < 1023
  · exact tableAt_congr (hdir d hd i hi)
  · unfold tableAt
    rw [if_neg (fun hc => hi hc.1), if_neg (fun hc => hi hc.1)]

/-- The directories are as before; what changed elsewhere shows in the slots. -/
theorem private_rebuild (h : Private b R G dirs m) (hmax : m'.pmm.maxFrames = m.pmm.maxFrames)
    (hdir : ∀ d ∈ dirs, ∀ k < 1023, m'.mem d k = m.mem d k)
    (hfix : ∀ t, b.fixed t → m'.mem t = m.mem t)
    (hcov : Covered m'.pmm (slots G' dirs m') (Own R dirs m)) : Private b R G' dirs m' := by
  have htab : ∀ d ∈ dirs, ∀ i, tableAt m' d i = tableAt m d i := fun d hd i =>
    tableAt_same hdir hd i
  have hown : ∀ t, Own R dirs m' t ↔ Own R dirs m t := own_congr htab
  refine ⟨fun t ht => ?_, h.dir, fun d hd i t ht => ?_, fun d hd d' hd' i i' t ht ht' => ?_,
    fun d hd i hi => ?_, fun t ht => ?_, covered_congr hcov (fun _ => rfl) hown⟩
  · rw [hmax]
    exact h.inside t ((hown t).mp ht)
  · exact h.table d hd i t (htab d hd i ▸ ht)
  · exact h.tables d hd d' hd' i i' t (htab d hd i ▸ ht) (htab d' hd' i' ▸ ht')
  · rw [hdir d hd i hi]
    exact h.shared d hd i hi
  · rw [hfix t ht]
    exact h.kernel t ht

/-- The pages are as before when the words of the tables are. -/
theorem slots_same (hdir : ∀ d ∈ dirs, ∀ k < 1023, m'.mem d k = m.mem d k)
    (htab : ∀ d ∈ dirs, ∀ i t, tableAt m d i = some t → ∀ k < 1024, m'.mem t k = m.mem t k) :
    slots G dirs m' = slots G dirs m := by
  funext x
  unfold slots
  split_ifs with hx
  · have ht := tableAt_same hdir hx (x.2/1024)
    cases h : tableAt m x.1 (x.2/1024) with
    | none =>
      rw [pteAt, pteAt, ht, h]
      rfl
    | some t =>
      rw [pteAt_table (ht.trans h), pteAt_table h, htab x.1 hx _ t h _ (Nat.mod_lt _ (by decide))]
  · rfl

theorem slots_mem (G : ℕ × ℕ → Option ℕ) (dirs : Finset ℕ) (hmem : m'.mem = m.mem) :
    slots G dirs m' = slots G dirs m :=
  slots_same (fun _ _ _ _ => by rw [hmem]) fun _ _ _ _ _ _ _ => by rw [hmem]

/-- Writes that hit no directory, no table of user pages and no fixed frame. -/
theorem private_mem (h : Private b R G dirs m) (hp : m'.pmm = m.pmm)
    (hdir : ∀ d ∈ dirs, ∀ k < 1023, m'.mem d k = m.mem d k)
    (htab : ∀ d ∈ dirs, ∀ i t, tableAt m d i = some t → ∀ k < 1024, m'.mem t k = m.mem t k)
    (hfix : ∀ t, b.fixed t → m'.mem t = m.mem t) : Private b R G dirs m' := by
  refine private_rebuild h (by rw [hp]) hdir hfix ?_
  rw [hp, slots_same hdir htab]
  exact h.covered

/-- A write to a frame that is none of the kernel's. -/
theorem private_data (h : Private b R G dirs m) {f : ℕ} (hf : ¬Own R dirs m f)
    (hp : m'.pmm = m.pmm) (hmem : ∀ g, g ≠ f → m'.mem g = m.mem g) : Private b R G dirs m' := by
  refine private_mem h hp (fun d hd k _ => ?_) (fun d hd i t ht k _ => ?_) fun t ht => ?_
  · rw [hmem d fun he => hf (Or.inr (Or.inl (he ▸ hd)))]
  · rw [hmem t fun he => hf (Or.inr (Or.inr ⟨d, hd, i, he ▸ ht⟩))]
  · exact hmem t fun he => hf (Or.inl (he ▸ (h.kernel t ht).1))

/-- The kernel has taken frame `t` and not used it yet. -/
structure Taken (b : Base) (R : ℕ → Prop) (G : ℕ × ℕ → Option ℕ) (dirs : Finset ℕ) (m : Machine)
    (t : ℕ) : Prop where
  keeps : Private b (fun s => R s ∨ s = t) G dirs m
  nonzero : t ≠ 0
  unused : ¬R t
  loose : ∀ d ∈ dirs, ∀ i < 1023, present (m.mem d i) = true → user (m.mem d i) = false →
    frameOf (m.mem d i) ≠ t
  count : m.pmm.refcounts t = 1

theorem taken_not_fixed (h : Taken b R G dirs m t) (hb : ∀ s, b.fixed s → R s) : ¬b.fixed t :=
  fun hf => h.unused (hb t hf)

theorem taken_not_dir (h : Taken b R G dirs m t) (hd : d ∈ dirs) : d ≠ t := fun he =>
  (h.keeps.dir d hd).2 (Or.inr he)

theorem taken_not_table (h : Taken b R G dirs m t) {s : ℕ} (hd : d ∈ dirs)
    (hs : tableAt m d i = some s) : s ≠ t := fun he => (h.keeps.table d hd i s hs).1 (Or.inr he)

theorem taken_fresh (h : Private b R G dirs m) (h0 : m.allocFrame.1 ≠ 0) :
    Taken b R G dirs m.allocFrame.2 m.allocFrame.1 := by
  obtain ⟨hcov, hfresh⟩ := covered_alloc h.covered h0
  have hmem : ∀ f k, m.allocFrame.2.mem f k = m.mem f k := fun _ _ => rfl
  have hR : ¬R m.pmm.allocFrame.1 := fun hr => hfresh.unowned (Or.inl hr)
  have hown : ∀ t, Own (fun s => R s ∨ s = m.pmm.allocFrame.1) dirs m.allocFrame.2 t ↔
      Own R dirs m t ∨ t = m.pmm.allocFrame.1 := by
    intro t
    constructor
    · rintro ((hr | he) | hs | hs)
      · exact Or.inl (Or.inl hr)
      · exact Or.inr he
      · exact Or.inl (Or.inr (Or.inl hs))
      · exact Or.inl (Or.inr (Or.inr hs))
    · rintro ((hr | hs | hs) | he)
      · exact Or.inl (Or.inl hr)
      · exact Or.inr (Or.inl hs)
      · exact Or.inr (Or.inr hs)
      · exact Or.inl (Or.inr he)
  refine ⟨⟨fun t ht => ?_, fun d hd => ⟨(h.dir d hd).1, ?_⟩, fun d hd i t ht => ⟨?_, ?_⟩, h.tables,
    fun d hd i hi hp hu => ?_, fun t ht => ?_, covered_congr hcov (fun _ => rfl) hown⟩, h0, hR,
    fun d hd i hi hp hu he => ?_, hfresh.count⟩
  · rw [Machine.allocFrame_pmm, hfresh.maxFrames]
    rcases (hown t).mp ht with ho | rfl
    · exact h.inside t ho
    · exact hfresh.inside
  · rintro (hr | rfl)
    · exact (h.dir d hd).2 hr
    · exact hfresh.unowned (Or.inr (Or.inl hd))
  · rintro (hr | rfl)
    · exact (h.table d hd i t ht).1 hr
    · exact hfresh.unowned (Or.inr (Or.inr ⟨d, hd, i, ht⟩))
  · exact (h.table d hd i t ht).2
  · exact ⟨Or.inl (h.shared d hd i hi hp hu).1, (h.shared d hd i hi hp hu).2⟩
  · exact ⟨Or.inl (h.kernel t ht).1, (h.kernel t ht).2⟩
  · have hr := (h.shared d hd i hi hp hu).1
    rw [hmem] at he
    rw [he] at hr
    exact hR hr

/-- The words of a frame that was taken may change. -/
theorem taken_mem (h : Taken b R G dirs m t) (hfix : ¬b.fixed t) (hp : m'.pmm = m.pmm)
    (hmem : ∀ g, g ≠ t → m'.mem g = m.mem g) : Taken b R G dirs m' t := by
  refine ⟨private_mem h.keeps hp (fun d hd k _ => ?_) (fun d hd i s hs k _ => ?_) fun s hs => ?_,
    h.nonzero, h.unused, fun d hd i hi => ?_, by rw [hp, h.count]⟩
  · rw [hmem d (taken_not_dir h hd)]
  · rw [hmem s (taken_not_table h hd hs)]
  · exact hmem s fun he => hfix (he ▸ hs)
  · rw [hmem d (taken_not_dir h hd)]
    exact h.loose d hd i hi

/-- The page number of an entry of a table. -/
theorem page_div (i : ℕ) {j : ℕ} (hj : j < 1024) : (1024*i+j)/1024 = i := by omega

theorem page_mod (i : ℕ) {j : ℕ} (hj : j < 1024) : (1024*i+j)%1024 = j := by omega

theorem slots_table (hd : d ∈ dirs) (ht : tableAt m d i = some t) {j : ℕ} (hj : j < 1024) :
    slots G dirs m (d, 1024*i+j) =
      if present (m.mem t j) then some (frameOf (m.mem t j)) else none := by
  have ht' : tableAt m d ((1024*i+j)/1024) = some t := by rw [page_div i hj, ht]
  rw [slots_dir hd, pteAt_table ht', page_mod i hj]
  split_ifs <;> rfl

/-- One entry of a table of user pages is written. -/
theorem slots_setPte (h : Private b R G dirs m) (hd : d ∈ dirs) (ht : tableAt m d i = some t)
    {j w : ℕ} (hj : j < 1024)
    (hmem : ∀ f k, m'.mem f k = if f = t ∧ k = j then w else m.mem f k) :
    slots G dirs m' = setSlot (slots G dirs m) (d, 1024*i+j)
      (if present w then some (frameOf w) else none) := by
  have hdir : ∀ d ∈ dirs, ∀ k < 1023, m'.mem d k = m.mem d k := fun d' hd' k _ => by
    rw [hmem, if_neg]
    exact fun hc => (h.table d hd i t ht).2 (hc.1 ▸ hd')
  funext x
  obtain ⟨e, n⟩ := x
  by_cases he : e ∈ dirs
  · have htab := tableAt_same hdir he (n/1024)
    by_cases hx : (e, n) = (d, 1024*i+j)
    · obtain ⟨rfl, rfl⟩ := Prod.mk.inj hx
      rw [setSlot_same, slots_dir he]
      rw [page_div i hj] at htab
      have ht' : tableAt m' e ((1024*i+j)/1024) = some t := by rw [page_div i hj, htab, ht]
      have hw : m'.mem t j = w := by
        rw [hmem]
        exact if_pos ⟨rfl, rfl⟩
      rw [pteAt_table ht', page_mod i hj, hw]
      split_ifs <;> rfl
    · rw [setSlot_ne _ _ hx, slots_dir he, slots_dir he]
      cases hs : tableAt m e (n/1024) with
      | none =>
        rw [pteAt, pteAt, htab, hs]
        rfl
      | some s =>
        have hw : m'.mem s (n%1024) = m.mem s (n%1024) := by
          rw [hmem]
          apply if_neg
          rintro ⟨rfl, hk⟩
          obtain ⟨rfl, hi⟩ := h.tables e he d hd _ _ s hs ht
          exact hx (Prod.ext rfl (by dsimp only; omega))
        rw [pteAt_table (htab.trans hs), pteAt_table hs, hw]
  · have hx : (e, n) ≠ (d, 1024*i+j) := fun hc => he ((Prod.mk.inj hc).1 ▸ hd)
    rw [setSlot_ne _ _ hx]
    exact (if_neg he).trans (if_neg he).symm

theorem private_setPte (h : Private b R G dirs m) (hd : d ∈ dirs) (ht : tableAt m d i = some t)
    {j w : ℕ} (hj : j < 1024) (hmax : m'.pmm.maxFrames = m.pmm.maxFrames)
    (hmem : ∀ f k, m'.mem f k = if f = t ∧ k = j then w else m.mem f k)
    (hcov : Covered m'.pmm (setSlot (slots G dirs m) (d, 1024*i+j)
      (if present w then some (frameOf w) else none)) (Own R dirs m)) :
    Private b R G dirs m' := by
  refine private_rebuild h hmax (fun d' hd' k _ => ?_) (fun s hs => ?_) ?_
  · rw [hmem, if_neg]
    exact fun hc => (h.table d hd i t ht).2 (hc.1 ▸ hd')
  · funext k
    rw [hmem, if_neg]
    exact fun hc => not_fixed_of_table h hd ht (hc.1 ▸ hs)
  · rwa [slots_setPte h hd ht hj hmem]

/-- An entry of a directory that leads to no table of user pages, before and after. -/
theorem private_setPde (h : Private b R G dirs m) (hold : tableAt m d i = none)
    (hnew : tableAt m' d i = none) (hp : m'.pmm = m.pmm)
    (hdir : ∀ d' ∈ dirs, ∀ k < 1023, (d' ≠ d ∨ k ≠ i) → m'.mem d' k = m.mem d' k)
    (htab : ∀ d ∈ dirs, ∀ i t, tableAt m d i = some t → ∀ k < 1024, m'.mem t k = m.mem t k)
    (hfix : ∀ t, b.fixed t → m'.mem t = m.mem t)
    (hw : i < 1023 → present (m'.mem d i) = true → user (m'.mem d i) = false →
      R (frameOf (m'.mem d i)) ∧ (b.low i = none → ¬b.fixed (frameOf (m'.mem d i)))) :
    Private b R G dirs m' := by
  have htabs : ∀ d' ∈ dirs, ∀ k, tableAt m' d' k = tableAt m d' k := by
    intro d' hd' k
    by_cases hx : d' = d ∧ k = i
    · rw [hx.1, hx.2, hold, hnew]
    · by_cases hk : k < 1023
      · exact tableAt_congr (hdir d' hd' k hk (by tauto))
      · unfold tableAt
        rw [if_neg (fun hc => hk hc.1), if_neg (fun hc => hk hc.1)]
  have hown : ∀ t, Own R dirs m' t ↔ Own R dirs m t := own_congr htabs
  have hslots : ∀ x, slots G dirs m' x = slots G dirs m x := by
    intro x
    unfold slots
    split_ifs with hx
    · cases hs : tableAt m x.1 (x.2/1024) with
      | none =>
        rw [pteAt, pteAt, htabs x.1 hx, hs]
        rfl
      | some s =>
        rw [pteAt_table ((htabs x.1 hx _).trans hs), pteAt_table hs,
          htab x.1 hx _ s hs _ (Nat.mod_lt _ (by decide))]
    · rfl
  refine ⟨fun t ht => ?_, h.dir, fun d hd i t ht => ?_, fun d hd d' hd' i i' t ht ht' => ?_,
    fun d' hd' k hk hpres huser => ?_, fun t ht => ?_, ?_⟩
  · rw [hp]
    exact h.inside t ((hown t).mp ht)
  · exact h.table d hd i t (htabs d hd i ▸ ht)
  · exact h.tables d hd d' hd' i i' t (htabs d hd i ▸ ht) (htabs d' hd' i' ▸ ht')
  · by_cases hx : d' = d ∧ k = i
    · rw [hx.1, hx.2] at hpres huser ⊢
      exact hw (hx.2 ▸ hk) hpres huser
    · rw [hdir d' hd' k hk (by tauto)] at hpres huser ⊢
      exact h.shared d' hd' k hk hpres huser
  · rw [hfix t ht]
    exact h.kernel t ht
  · rw [hp]
    exact covered_congr h.covered hslots hown

section NewTable

/-- Frame `t` becomes an empty table of user pages, below entry `i` of directory `d`. -/
structure NewTable (dirs : Finset ℕ) (m m' : Machine) (d i t : ℕ) : Prop where
  dir : d ∈ dirs
  index : i < 1023
  old : tableAt m d i = none
  new : tableAt m' d i = some t
  pmm : m'.pmm = m.pmm
  others : ∀ f k, ¬(f = d ∧ k = i) → m'.mem f k = if f = t ∧ k < 1024 then 0 else m.mem f k

variable (ht : Taken b R G dirs m t) (hn : NewTable dirs m m' d i t)
include ht hn

theorem newTable_entry {d' k : ℕ} (hd' : d' ∈ dirs) (hx : ¬(d' = d ∧ k = i)) :
    m'.mem d' k = m.mem d' k := by
  rw [hn.others d' k hx, if_neg fun hc => taken_not_dir ht hd' hc.1]

/-- The new table is none of the old ones. -/
theorem newTable_cases {d' k s : ℕ} (hd' : d' ∈ dirs) (hs : tableAt m' d' k = some s) :
    (d' = d ∧ k = i ∧ s = t) ∨ (tableAt m d' k = some s ∧ s ≠ t) := by
  by_cases hx : d' = d ∧ k = i
  · rw [hx.1, hx.2, hn.new] at hs
    exact Or.inl ⟨hx.1, hx.2, (Option.some.inj hs).symm⟩
  · rw [tableAt_congr (newTable_entry ht hn hd' hx)] at hs
    exact Or.inr ⟨hs, taken_not_table ht hd' hs⟩

theorem newTable_own (s : ℕ) : Own R dirs m' s ↔ Own (fun s => R s ∨ s = t) dirs m s := by
  constructor
  · rintro (hr | hs | ⟨d', hd', k, hs⟩)
    · exact Or.inl (Or.inl hr)
    · exact Or.inr (Or.inl hs)
    · rcases newTable_cases ht hn hd' hs with ⟨-, -, he⟩ | ⟨hs', -⟩
      · exact Or.inl (Or.inr he)
      · exact Or.inr (Or.inr ⟨d', hd', k, hs'⟩)
  · rintro ((hr | he) | hs | ⟨d', hd', k, hs⟩)
    · exact Or.inl hr
    · exact Or.inr (Or.inr ⟨d, hn.dir, i, he ▸ hn.new⟩)
    · exact Or.inr (Or.inl hs)
    · have hx : ¬(d' = d ∧ k = i) := by
        rintro ⟨rfl, rfl⟩
        rw [hn.old] at hs
        exact absurd hs (by simp)
      exact Or.inr (Or.inr ⟨d', hd', k, (tableAt_congr (newTable_entry ht hn hd' hx)).trans hs⟩)

theorem newTable_slots : slots G dirs m' = slots G dirs m := by
  funext x
  unfold slots
  split_ifs with hx
  · by_cases hxi : x.1 = d ∧ x.2/1024 = i
    · have hzero : m'.mem t (x.2%1024) = 0 := by
        rw [hn.others _ _ fun hc => taken_not_dir ht hn.dir hc.1.symm,
          if_pos ⟨rfl, Nat.mod_lt _ (by decide)⟩]
      have hnew : tableAt m' x.1 (x.2/1024) = some t := by rw [hxi.1, hxi.2, hn.new]
      rw [pteAt_table hnew, hzero, pteAt, hxi.1, hxi.2, hn.old]
      rfl
    · have htab := tableAt_congr (newTable_entry ht hn hx hxi)
      cases hs : tableAt m x.1 (x.2/1024) with
      | none =>
        rw [pteAt, pteAt, htab, hs]
        rfl
      | some s =>
        have hst := taken_not_table ht hx hs
        have hsd : s ≠ d := fun he => (ht.keeps.table x.1 hx _ s hs).2 (he ▸ hn.dir)
        have hw : m'.mem s (x.2%1024) = m.mem s (x.2%1024) := by
          rw [hn.others _ _ fun hc => hsd hc.1, if_neg fun hc => hst hc.1]
        rw [pteAt_table (htab.trans hs), pteAt_table hs, hw]
  · rfl

theorem taken_newTable (hfix : ¬b.fixed t) : Private b R G dirs m' := by
  have h := ht.keeps
  have hown := newTable_own ht hn
  refine ⟨fun s hs => ?_, fun d' hd' => ?_, fun d' hd' k s hs => ?_,
    fun d1 hd1 d2 hd2 k1 k2 s hs1 hs2 => ?_, fun d' hd' k hk hpres huser => ?_, fun s hs => ?_, ?_⟩
  · rw [hn.pmm]
    exact h.inside s ((hown s).mp hs)
  · exact ⟨(h.dir d' hd').1, fun hr => (h.dir d' hd').2 (Or.inl hr)⟩
  · rcases newTable_cases ht hn hd' hs with ⟨-, -, rfl⟩ | ⟨hs', -⟩
    · exact ⟨ht.unused, fun hin => taken_not_dir ht hin rfl⟩
    · exact ⟨fun hr => (h.table d' hd' k s hs').1 (Or.inl hr), (h.table d' hd' k s hs').2⟩
  · rcases newTable_cases ht hn hd1 hs1 with ⟨rfl, rfl, rfl⟩ | ⟨h1, hne⟩
    · rcases newTable_cases ht hn hd2 hs2 with ⟨rfl, rfl, -⟩ | ⟨-, hne⟩
      · exact ⟨rfl, rfl⟩
      · exact absurd rfl hne
    · rcases newTable_cases ht hn hd2 hs2 with ⟨-, -, he⟩ | ⟨h2, -⟩
      · exact absurd he hne
      · exact h.tables d1 hd1 d2 hd2 k1 k2 s h1 h2
  · by_cases hx : d' = d ∧ k = i
    · have hu := (tableAt_some hn.new).2.2.1
      rw [hx.1, hx.2, hu] at huser
      exact absurd huser (by simp)
    · rw [newTable_entry ht hn hd' hx] at hpres huser ⊢
      obtain ⟨hr, hlow⟩ := h.shared d' hd' k hk hpres huser
      exact ⟨hr.resolve_right (ht.loose d' hd' k hk hpres huser), hlow⟩
  · obtain ⟨hr, him⟩ := h.kernel s hs
    have hst : s ≠ t := fun he => hfix (he ▸ hs)
    have hsd : s ≠ d := fun he => (h.dir d hn.dir).2 (he ▸ hr)
    refine ⟨hr.resolve_right hst, ?_⟩
    rw [← him]
    funext k
    rw [hn.others _ _ fun hc => hsd hc.1, if_neg fun hc => hst hc.1]
  · rw [hn.pmm, newTable_slots ht hn]
    exact covered_congr h.covered (fun _ => rfl) hown

end NewTable

/-- A loose frame becomes a directory that leads to tables of the kernel only. -/
theorem taken_insertDir (ht : Taken b R G dirs m t) (hG : ∀ n, G (t, n) = none)
    (hfix : ¬b.fixed t)
    (hshared : ∀ k < 1023, present (m.mem t k) = true → user (m.mem t k) = false ∧
      R (frameOf (m.mem t k)) ∧ (b.low k = none → ¬b.fixed (frameOf (m.mem t k)))) :
    Private b R G (insert t dirs) m := by
  have h := ht.keeps
  have hnone : ∀ k, tableAt m t k = none := by
    intro k
    apply if_neg
    rintro ⟨hk, hp, hu⟩
    rw [(hshared k hk hp).1] at hu
    exact absurd hu (by simp)
  have hcases : ∀ d ∈ insert t dirs, ∀ i s, tableAt m d i = some s → d ∈ dirs := by
    intro d hd i s hs
    rcases Finset.mem_insert.mp hd with rfl | hd
    · rw [hnone] at hs
      exact absurd hs (by simp)
    · exact hd
  have hown : ∀ s, Own R (insert t dirs) m s ↔ Own (fun s => R s ∨ s = t) dirs m s := by
    intro s
    constructor
    · rintro (hr | hs | ⟨d, hd, i, hs⟩)
      · exact Or.inl (Or.inl hr)
      · rcases Finset.mem_insert.mp hs with he | hs
        · exact Or.inl (Or.inr he)
        · exact Or.inr (Or.inl hs)
      · exact Or.inr (Or.inr ⟨d, hcases d hd i s hs, i, hs⟩)
    · rintro ((hr | he) | hs | ⟨d, hd, i, hs⟩)
      · exact Or.inl hr
      · exact Or.inr (Or.inl (Finset.mem_insert.mpr (Or.inl he)))
      · exact Or.inr (Or.inl (Finset.mem_insert_of_mem hs))
      · exact Or.inr (Or.inr ⟨d, Finset.mem_insert_of_mem hd, i, hs⟩)
  have hslots : ∀ x, slots G (insert t dirs) m x = slots G dirs m x := by
    rintro ⟨d, n⟩
    by_cases hdt : d = t
    · subst hdt
      have hd : d ∉ dirs := fun hd => taken_not_dir ht hd rfl
      rw [slots_dir (Finset.mem_insert_self d dirs), pteAt, hnone, slots, if_neg hd, hG]
      rfl
    · exact if_congr (Finset.mem_insert.trans (or_iff_right hdt)) rfl rfl
  refine ⟨fun s hs => h.inside s ((hown s).mp hs), fun d hd => ?_, fun d hd i s hs => ?_,
    fun d hd d' hd' i i' s hs hs' => ?_, fun d hd i hi hp hu => ?_, fun s hs => ?_,
    covered_congr h.covered hslots hown⟩
  · rcases Finset.mem_insert.mp hd with rfl | hd
    · exact ⟨ht.nonzero, ht.unused⟩
    · exact ⟨(h.dir d hd).1, fun hr => (h.dir d hd).2 (Or.inl hr)⟩
  · obtain ⟨h1, h2⟩ := h.table d (hcases d hd i s hs) i s hs
    refine ⟨fun hr => h1 (Or.inl hr), fun hin => ?_⟩
    rcases Finset.mem_insert.mp hin with he | hin
    · exact h1 (Or.inr he)
    · exact h2 hin
  · exact h.tables d (hcases d hd i s hs) d' (hcases d' hd' i' s hs') i i' s hs hs'
  · rcases Finset.mem_insert.mp hd with rfl | hd
    · exact (hshared i hi hp).2
    · obtain ⟨hr, hlow⟩ := h.shared d hd i hi hp hu
      exact ⟨hr.resolve_right (ht.loose d hd i hi hp hu), hlow⟩
  · obtain ⟨hr, him⟩ := h.kernel s hs
    exact ⟨hr.resolve_right fun he => hfix (he ▸ hs), him⟩

/-- A directory leaves the live ones. Its frames stay with the kernel and its pages
become ghosts. -/
theorem private_removeDir (h : Private b R G dirs m) (hd : d ∈ dirs) :
    Private b (fun s => R s ∨ s = d ∨ ∃ i, tableAt m d i = some s)
      (fun x => if x.1 = d then slots G dirs m x else G x) (dirs.erase d) m := by
  have hsub : ∀ d' ∈ dirs.erase d, d' ≠ d ∧ d' ∈ dirs := fun d' hd' => Finset.mem_erase.mp hd'
  have hown : ∀ s, Own (fun s => R s ∨ s = d ∨ ∃ i, tableAt m d i = some s) (dirs.erase d) m s ↔
      Own R dirs m s := by
    intro s
    constructor
    · rintro ((hr | rfl | ⟨i, hs⟩) | hs | ⟨d', hd', i, hs⟩)
      · exact Or.inl hr
      · exact Or.inr (Or.inl hd)
      · exact Or.inr (Or.inr ⟨d, hd, i, hs⟩)
      · exact Or.inr (Or.inl (hsub s hs).2)
      · exact Or.inr (Or.inr ⟨d', (hsub d' hd').2, i, hs⟩)
    · rintro (hr | hs | ⟨d', hd', i, hs⟩)
      · exact Or.inl (Or.inl hr)
      · by_cases he : s = d
        · exact Or.inl (Or.inr (Or.inl he))
        · exact Or.inr (Or.inl (Finset.mem_erase.mpr ⟨he, hs⟩))
      · by_cases he : d' = d
        · exact Or.inl (Or.inr (Or.inr ⟨i, he ▸ hs⟩))
        · exact Or.inr (Or.inr ⟨d', Finset.mem_erase.mpr ⟨he, hd'⟩, i, hs⟩)
  have hslots : ∀ x, slots (fun x => if x.1 = d then slots G dirs m x else G x) (dirs.erase d) m x =
      slots G dirs m x := by
    intro x
    by_cases he : x.1 = d
    · rw [slots, if_neg (fun hin => (hsub x.1 hin).1 he), if_pos he]
    · exact if_congr (Finset.mem_erase.trans (and_iff_right he)) rfl (if_neg he)
  refine ⟨fun s hs => h.inside s ((hown s).mp hs), fun d' hd' => ?_, fun d' hd' i s hs => ?_,
    fun d1 hd1 d2 hd2 => h.tables d1 (hsub d1 hd1).2 d2 (hsub d2 hd2).2, fun d' hd' i hi hp hu => ?_,
    fun s hs => ⟨Or.inl (h.kernel s hs).1, (h.kernel s hs).2⟩, covered_congr h.covered hslots hown⟩
  · obtain ⟨hne, hin⟩ := hsub d' hd'
    refine ⟨(h.dir d' hin).1, ?_⟩
    rintro (hr | he | ⟨i, hi⟩)
    · exact (h.dir d' hin).2 hr
    · exact hne he
    · exact (h.table d hd i d' hi).2 hin
  · obtain ⟨hne, hin⟩ := hsub d' hd'
    obtain ⟨h1, h2⟩ := h.table d' hin i s hs
    refine ⟨?_, fun hs' => h2 (hsub s hs').2⟩
    rintro (hr | rfl | ⟨k, hk⟩)
    · exact h1 hr
    · exact h2 hd
    · exact hne (h.tables d' hin d hd i k s hs hk).1
  · obtain ⟨hr, hlow⟩ := h.shared d' (hsub d' hd').2 i hi hp hu
    exact ⟨Or.inl hr, hlow⟩

/-- A ghost page gives its frame back. -/
theorem private_dropGhost (h : Private b R G dirs m) {x : ℕ × ℕ} {f : ℕ} (hx : x.1 ∉ dirs)
    (hG : G x = some f) (hmem : m'.mem = m.mem) (hp : m'.pmm = m.pmm.freeFrame f) :
    Private b R (setSlot G x none) dirs m' := by
  have hslot : slots G dirs m x = some f := (if_neg hx).trans hG
  refine private_rebuild h (by rw [hp, freeFrame_maxFrames]) (fun _ _ _ _ => by rw [hmem])
    (fun _ _ => by rw [hmem]) ?_
  rw [hp]
  refine covered_congr (covered_drop h.covered hslot) (fun y => ?_) fun _ => Iff.rfl
  have hs : slots G dirs m' = slots G dirs m := slots_mem G dirs hmem
  by_cases hyx : y = x
  · rw [hyx, setSlot_same, slots, if_neg hx, setSlot_same]
  · rw [setSlot_ne _ _ hyx, ← hs]
    unfold slots
    rw [setSlot_ne _ _ hyx]

/-- The kernel gives a frame back that no directory leads to. -/
theorem private_release (h : Private b R G dirs m) (hR : R t) (hfix : ¬b.fixed t)
    (hloose : ∀ d ∈ dirs, ∀ i < 1023, present (m.mem d i) = true → user (m.mem d i) = false →
      frameOf (m.mem d i) ≠ t) (hmem : m'.mem = m.mem) (hp : m'.pmm = m.pmm.freeFrame t) :
    Private b (fun s => R s ∧ s ≠ t) G dirs m' := by
  have htab : ∀ d i, tableAt m' d i = tableAt m d i := fun d i => tableAt_congr (by rw [hmem])
  have hown : ∀ s, Own (fun s => R s ∧ s ≠ t) dirs m' s ↔ Own R dirs m s ∧ s ≠ t := by
    intro s
    unfold Own
    simp only [htab]
    constructor
    · rintro (hr | hs | ⟨d, hd, i, hs⟩)
      · exact ⟨Or.inl hr.1, hr.2⟩
      · exact ⟨Or.inr (Or.inl hs), fun he => (h.dir s hs).2 (he ▸ hR)⟩
      · exact ⟨Or.inr (Or.inr ⟨d, hd, i, hs⟩), fun he => (h.table d hd i s hs).1 (he ▸ hR)⟩
    · rintro ⟨hr | hs | hs, hne⟩
      · exact Or.inl ⟨hr, hne⟩
      · exact Or.inr (Or.inl hs)
      · exact Or.inr (Or.inr hs)
  have hslots : slots G dirs m' = slots G dirs m := slots_mem G dirs hmem
  refine ⟨fun s hs => ?_, fun d hd => ⟨(h.dir d hd).1, fun hr => (h.dir d hd).2 hr.1⟩,
    fun d hd i s hs => ?_, fun d hd d' hd' i i' s hs hs' => ?_, fun d hd i hi hpr hu => ?_,
    fun s hs => ?_, ?_⟩
  · rw [hp, freeFrame_maxFrames]
    exact h.inside s ((hown s).mp hs).1
  · rw [htab] at hs
    exact ⟨fun hr => (h.table d hd i s hs).1 hr.1, (h.table d hd i s hs).2⟩
  · rw [htab] at hs hs'
    exact h.tables d hd d' hd' i i' s hs hs'
  · rw [hmem] at hpr hu ⊢
    obtain ⟨hr, hlow⟩ := h.shared d hd i hi hpr hu
    exact ⟨⟨hr, hloose d hd i hi hpr hu⟩, hlow⟩
  · rw [hmem]
    exact ⟨⟨(h.kernel s hs).1, fun he => hfix (he ▸ hs)⟩, (h.kernel s hs).2⟩
  · rw [hp, hslots]
    exact covered_congr (covered_release h.covered (Or.inl hR)) (fun _ => rfl) hown

/-- The kernel reserves what it likes to call so. -/
theorem private_congr (h : Private b R G dirs m) {R' : ℕ → Prop} (hR : ∀ s, R' s ↔ R s)
    (hG : ∀ x, G' x = G x) : Private b R' G' dirs m := by
  have h1 : R' = R := funext fun s => propext (hR s)
  have h2 : G' = G := funext hG
  rwa [h1, h2]

end Vlsmc.AddressSpaces
