import Vlsmc.CowClone

/-!
# Processes that share pages

The processes of the kernel and what they do to user memory, next to a
reference in which a fork copies every page at once. The invariant ties the
reference counts, `PAGE_COW` and `PAGE_WRITABLE` of all tables together.
-/

set_option autoImplicit false

namespace Vlsmc.CowProcesses
open Vlsmc.Words Vlsmc.SharedFrames Vlsmc.PhysicalMemory Vlsmc.Paging Vlsmc.CowClone

/-- `procs` gives the directory of a process. -/
structure World where
  machine : Machine
  procs : ℕ → Option ℕ

inductive Action where
  | fork (parent child : ℕ)
  | load (pid virt : ℕ)
  | store (pid virt value : ℕ)
  | munmap (pid virt : ℕ)
  | sbrk (pid virt : ℕ)
  | exit (pid : ℕ)
  deriving DecidableEq, Repr

inductive Outcome where
  | done
  | value (word : ℕ)
  | fault
  deriving DecidableEq, Repr

/-- The present user table entries, by process and page number. -/
def ptes (s : World) (x : ℕ × ℕ) : Option ℕ :=
  (s.procs x.1).bind fun d => pteAt s.machine d x.2

def mapped (s : World) (x : ℕ × ℕ) : Option ℕ := (ptes s x).map frameOf

/-- A store, with the page fault that it raises on a page that is not writable.
No outcome when the frame for the copy cannot be allocated. -/
def storeWord (m : Machine) (virt value : ℕ) : Option (Machine × Outcome) :=
  match m.userAccess virt true with
  | some p => some (m.write p value, .done)
  | none =>
    let handled := m.cowHandleFault virt (m.errorCode virt true)
    if handled.1 then
      (handled.2.userAccess virt true).map fun p => (handled.2.write p value, .done)
    else if cow (m.walk virt).2 then none
    else some (handled.2, .fault)

/-- The process runs with its own directory loaded. Loads, stores and unmappings
are at mapped pages; a fork takes a free process number below 32. -/
def step (s : World) : Action → Option (World × Outcome)
  | .fork p q =>
    (s.procs p).bind fun d =>
      if q < 32 ∧ s.procs q = none then
        let cloned := (s.machine.switchAddressSpace d).cowCloneDirectory
        if cloned.1 = 0 then none
        else some (⟨cloned.2, fun r => if r = q then some cloned.1 else s.procs r⟩, .done)
      else none
  | .load p virt =>
    (s.procs p).bind fun d =>
      let m := s.machine.switchAddressSpace d
      if (ptes s (p, virt/4096)).isSome then
        match m.userAccess virt false with
        | some l => some (⟨m, s.procs⟩, .value (m.read l))
        | none => some (⟨m, s.procs⟩, .fault)
      else none
  | .store p virt value =>
    (s.procs p).bind fun d =>
      if (ptes s (p, virt/4096)).isSome then
        (storeWord (s.machine.switchAddressSpace d) virt value).map fun r => (⟨r.1, s.procs⟩, r.2)
      else none
  | .munmap p virt =>
    (s.procs p).bind fun d =>
      if (ptes s (p, virt/4096)).isSome then
        some (⟨(s.machine.switchAddressSpace d).munmapPage virt, s.procs⟩, .done)
      else none
  | .sbrk p virt =>
    (s.procs p).bind fun d =>
      if (ptes s (p, virt/4096)).isSome then
        some (⟨(s.machine.switchAddressSpace d).sbrkPage virt, s.procs⟩, .done)
      else none
  | .exit p =>
    (s.procs p).bind fun d =>
      some (⟨(s.machine.switchAddressSpace d).destroyAddressSpace d,
        fun r => if r = p then none else s.procs r⟩, .done)

def run (s : World) : List Action → Option (World × List Outcome)
  | [] => some (s, [])
  | a::as => (step s a).bind fun r => (run r.1 as).map fun r' => (r'.1, r.2::r'.2)

structure Page where
  data : Fin 1024 → ℕ
  writable : Bool

/-- The reference: every process has its own copy of every page. -/
structure Reference where
  live : ℕ → Bool
  page : ℕ × ℕ → Option Page

def wordIndex (virt : ℕ) : Fin 1024 := ⟨virt%4096/4, by omega⟩

def Page.set (g : Page) (k : Fin 1024) (value : ℕ) : Page :=
  { g with data := fun j => if j = k then value else g.data j }

def unmapReference (r : Reference) (p virt : ℕ) : Option (Reference × Outcome) :=
  if r.live p ∧ (r.page (p, virt/4096)).isSome then
    some ({ r with page := setSlot r.page (p, virt/4096) none }, .done)
  else none

def referenceStep (r : Reference) : Action → Option (Reference × Outcome)
  | .fork p q =>
    if r.live p ∧ q < 32 ∧ r.live q = false then
      some (⟨fun i => if i = q then true else r.live i,
        fun x => if x.1 = q then r.page (p, x.2) else r.page x⟩, .done)
    else none
  | .load p virt =>
    if r.live p then
      (r.page (p, virt/4096)).map fun g => (r, .value (g.data (wordIndex virt)))
    else none
  | .store p virt value =>
    if r.live p then
      (r.page (p, virt/4096)).map fun g =>
        if g.writable then
          ({ r with page := setSlot r.page (p, virt/4096) (some (g.set (wordIndex virt) value)) },
            .done)
        else (r, .fault)
    else none
  | .munmap p virt => unmapReference r p virt
  | .sbrk p virt => unmapReference r p virt
  | .exit p =>
    if r.live p then
      some (⟨fun i => if i = p then false else r.live i,
        fun x => if x.1 = p then none else r.page x⟩, .done)
    else none

def referenceRun (r : Reference) : List Action → Option (Reference × List Outcome)
  | [] => some (r, [])
  | a::as => (referenceStep r a).bind fun q =>
      (referenceRun q.1 as).map fun q' => (q'.1, q.2::q'.2)

/-- A page that may be written, now or after a copy. -/
def pageOf (m : Machine) (w : ℕ) : Page :=
  ⟨fun k => m.mem (frameOf w) k, writable w || cow w⟩

/-- What the processes see. -/
def view (s : World) : Reference :=
  ⟨fun p => (s.procs p).isSome, fun x => (ptes s x).map (pageOf s.machine)⟩

/-- The frames of the kernel: those that are `reserved` throughout, the
directories and their tables. -/
def Own (reserved : ℕ → Prop) (s : World) (t : ℕ) : Prop :=
  reserved t ∨ ∃ p d, s.procs p = some d ∧ (t = d ∨ ∃ i, tableAt s.machine d i = some t)

/-- The directories and tables of all processes are separate. -/
structure Layout (reserved : ℕ → Prop) (s : World) : Prop where
  kernel : reserved s.machine.kernelDirectory
  pids : ∀ p d, s.procs p = some d → p < 32
  dir : ∀ p d, s.procs p = some d → d ≠ 0 ∧ d < s.machine.pmm.maxFrames ∧ ¬ reserved d ∧
    s.machine.mem d 1023 = entry d 3
  dirs : ∀ p p' d, s.procs p = some d → s.procs p' = some d → p = p'
  table : ∀ p d i t, s.procs p = some d → tableAt s.machine d i = some t →
    t < s.machine.pmm.maxFrames ∧ ¬ reserved t ∧ writable (s.machine.mem d i) = true ∧
    ∀ p', s.procs p' ≠ some t
  tables : ∀ p d i p' d' i' t, s.procs p = some d → s.procs p' = some d' →
    tableAt s.machine d i = some t → tableAt s.machine d' i' = some t → p = p' ∧ i = i'
  user : ∀ x w, ptes s x = some w → user w = true

structure Sound (reserved : ℕ → Prop) (s : World) : Prop where
  layout : Layout reserved s
  ledger : Ledger s.machine.pmm (mapped s) (Own reserved s) Prod.fst
  sole : ∀ x w, ptes s x = some w → writable w = true →
    ∀ y, mapped s y = some (frameOf w) → y = x

variable {reserved : ℕ → Prop} {s : World}

theorem ptes_some {p n w : ℕ} (h : ptes s (p, n) = some w) :
    ∃ d t, s.procs p = some d ∧ tableAt s.machine d (n/1024) = some t ∧ present w = true ∧
      s.machine.mem t (n%1024) = w := by
  unfold ptes at h
  cases hd : s.procs p with
  | none => simp [hd] at h
  | some d =>
    simp only [hd, Option.bind_some] at h
    obtain ⟨t, h1, h2, h3⟩ := pteAt_some h
    exact ⟨d, t, rfl, h1, h2, h3⟩

theorem ptes_of {p n d : ℕ} (h : s.procs p = some d) : ptes s (p, n) = pteAt s.machine d n := by
  simp only [ptes, h, Option.bind_some]

theorem own_dir {p d : ℕ} (h : s.procs p = some d) : Own reserved s d :=
  Or.inr ⟨p, d, h, Or.inl rfl⟩

theorem own_table {p d i t : ℕ} (h : s.procs p = some d) (ht : tableAt s.machine d i = some t) :
    Own reserved s t := Or.inr ⟨p, d, h, Or.inr ⟨i, ht⟩⟩

section Update

variable {p d n t w' : ℕ} {m' : Machine}

/-- Writing one table entry changes no directory. -/
theorem tableAt_update (hl : Layout reserved s) (hd : s.procs p = some d)
    (ht : tableAt s.machine d (n/1024) = some t)
    (hmem : ∀ f, Own reserved s f → ∀ k, m'.mem f k =
      if f = t ∧ k = n%1024 then w' else s.machine.mem f k)
    {p' d' : ℕ} (hd' : s.procs p' = some d') (i : ℕ) :
    m'.mem d' i = s.machine.mem d' i := by
  rw [hmem d' (own_dir hd'), if_neg]
  exact fun hh => (hl.table p d _ t hd ht).2.2.2 p' (hh.1 ▸ hd')

theorem ptes_update (hl : Layout reserved s) (hd : s.procs p = some d)
    (ht : tableAt s.machine d (n/1024) = some t)
    (hmem : ∀ f, Own reserved s f → ∀ k, m'.mem f k =
      if f = t ∧ k = n%1024 then w' else s.machine.mem f k) :
    ptes ⟨m', s.procs⟩ = setSlot (ptes s) (p, n) (if present w' then some w' else none) := by
  funext x
  obtain ⟨p', n'⟩ := x
  cases hd' : s.procs p' with
  | none =>
    have hne : (p', n') ≠ (p, n) := by
      rintro he
      rw [(Prod.mk.inj he).1, hd] at hd'
      exact absurd hd' (by simp)
    rw [setSlot_ne _ _ hne]
    simp [ptes, hd']
  | some d' =>
    have h1 : ptes ⟨m', s.procs⟩ (p', n') = pteAt m' d' n' := by
      simp only [ptes, hd', Option.bind_some]
    have htab : tableAt m' d' (n'/1024) = tableAt s.machine d' (n'/1024) :=
      tableAt_congr (tableAt_update hl hd ht hmem hd' _)
    rw [h1]
    cases ht' : tableAt s.machine d' (n'/1024) with
    | none =>
      have hne : (p', n') ≠ (p, n) := by
        rintro he
        obtain ⟨rfl, rfl⟩ := Prod.mk.inj he
        rw [hd] at hd'
        rw [← Option.some.inj hd', ht] at ht'
        exact absurd ht' (by simp)
      rw [setSlot_ne _ _ hne, ptes_of hd', pteAt, pteAt, htab, ht']
      rfl
    | some t' =>
      rw [pteAt_table (htab.trans ht')]
      have hword := hmem t' (own_table hd' ht') (n'%1024)
      by_cases hx : (p', n') = (p, n)
      · obtain ⟨rfl, rfl⟩ := Prod.mk.inj hx
        have htt : t' = t := by
          rw [hd] at hd'
          rw [← Option.some.inj hd', ht] at ht'
          exact (Option.some.inj ht').symm
        rw [if_pos ⟨htt, rfl⟩] at hword
        rw [hword, setSlot_same]
      · have hother : ¬ (t' = t ∧ n'%1024 = n%1024) := by
          rintro ⟨rfl, hmod⟩
          obtain ⟨h2, h3⟩ := hl.tables p' d' _ p d _ t' hd' hd ht' ht
          apply hx
          rw [h2]
          congr 1
          omega
        rw [if_neg hother] at hword
        rw [setSlot_ne _ _ hx, ptes_of hd', pteAt_table ht', hword]

theorem own_update (hl : Layout reserved s) (hd : s.procs p = some d)
    (ht : tableAt s.machine d (n/1024) = some t)
    (hmem : ∀ f, Own reserved s f → ∀ k, m'.mem f k =
      if f = t ∧ k = n%1024 then w' else s.machine.mem f k) (f : ℕ) :
    Own reserved ⟨m', s.procs⟩ f ↔ Own reserved s f := by
  have htab : ∀ {p' d' : ℕ}, s.procs p' = some d' → ∀ i,
      tableAt m' d' i = tableAt s.machine d' i := fun hd' i =>
    tableAt_congr (tableAt_update hl hd ht hmem hd' i)
  constructor
  · rintro (h | ⟨p', d', hd', h | ⟨i, hi⟩⟩)
    · exact Or.inl h
    · exact Or.inr ⟨p', d', hd', Or.inl h⟩
    · exact Or.inr ⟨p', d', hd', Or.inr ⟨i, (htab hd' i).symm.trans hi⟩⟩
  · rintro (h | ⟨p', d', hd', h | ⟨i, hi⟩⟩)
    · exact Or.inl h
    · exact Or.inr ⟨p', d', hd', Or.inl h⟩
    · exact Or.inr ⟨p', d', hd', Or.inr ⟨i, (htab hd' i).trans hi⟩⟩

theorem layout_update (hl : Layout reserved s) (hd : s.procs p = some d)
    (ht : tableAt s.machine d (n/1024) = some t)
    (hmem : ∀ f, Own reserved s f → ∀ k, m'.mem f k =
      if f = t ∧ k = n%1024 then w' else s.machine.mem f k)
    (hkd : m'.kernelDirectory = s.machine.kernelDirectory)
    (hmax : m'.pmm.maxFrames = s.machine.pmm.maxFrames)
    (huser : present w' = true → user w' = true) : Layout reserved ⟨m', s.procs⟩ := by
  have hdir : ∀ {p' d' : ℕ}, s.procs p' = some d' → ∀ i, m'.mem d' i = s.machine.mem d' i :=
    fun hd' i => tableAt_update hl hd ht hmem hd' i
  have htab : ∀ {p' d' : ℕ}, s.procs p' = some d' → ∀ i,
      tableAt m' d' i = tableAt s.machine d' i := fun hd' i => tableAt_congr (hdir hd' i)
  refine ⟨by simpa only [hkd] using hl.kernel, hl.pids, ?_, hl.dirs, ?_, ?_, ?_⟩
  · intro p' d' hd'
    simp only [hmax, hdir hd']
    exact hl.dir p' d' hd'
  · intro p' d' i t' hd' ht'
    simp only [hmax, hdir hd']
    exact hl.table p' d' i t' hd' ((htab hd' i).symm.trans ht')
  · intro p1 d1 i1 p2 d2 i2 t' h1 h2 h3 h4
    exact hl.tables p1 d1 i1 p2 d2 i2 t' h1 h2 ((htab h1 i1).symm.trans h3)
      ((htab h2 i2).symm.trans h4)
  · intro x w hx
    rw [ptes_update hl hd ht hmem] at hx
    by_cases hxp : x = (p, n)
    · rw [hxp, setSlot_same] at hx
      split_ifs at hx with hp
      rw [← Option.some.inj hx]
      exact huser hp
    · rw [setSlot_ne _ _ hxp] at hx
      exact hl.user x w hx

/-- The invariant after one table entry was written, with the counts to match. -/
theorem sound_update (hs : Sound reserved s) (hd : s.procs p = some d)
    (ht : tableAt s.machine d (n/1024) = some t)
    (hmem : ∀ f, Own reserved s f → ∀ k, m'.mem f k =
      if f = t ∧ k = n%1024 then w' else s.machine.mem f k)
    (hkd : m'.kernelDirectory = s.machine.kernelDirectory)
    (hmax : m'.pmm.maxFrames = s.machine.pmm.maxFrames)
    (huser : present w' = true → user w' = true)
    (hledger : Ledger m'.pmm (setSlot (mapped s) (p, n)
      (if present w' then some (frameOf w') else none)) (Own reserved s) Prod.fst)
    (hsole : present w' = true → ∀ y, y ≠ (p, n) → mapped s y ≠ some (frameOf w')) :
    Sound reserved ⟨m', s.procs⟩ := by
  have hptes := ptes_update hs.layout hd ht hmem
  have hmapped : mapped ⟨m', s.procs⟩ = setSlot (mapped s) (p, n)
      (if present w' then some (frameOf w') else none) := by
    funext x
    rw [mapped, hptes]
    unfold setSlot mapped
    split_ifs <;> rfl
  refine ⟨layout_update hs.layout hd ht hmem hkd hmax huser, ?_, ?_⟩
  · exact ledger_congr hledger (fun x => congrFun hmapped x) (own_update hs.layout hd ht hmem)
  · intro x w hx hw y hy
    rw [hptes] at hx
    rw [hmapped] at hy
    by_cases hxp : x = (p, n)
    · rw [hxp, setSlot_same] at hx
      split_ifs at hx with hp
      rw [← Option.some.inj hx] at hy
      by_contra hyx
      rw [hxp] at hyx
      rw [setSlot_ne _ _ hyx] at hy
      exact hsole hp y hyx hy
    · rw [setSlot_ne _ _ hxp] at hx
      by_cases hyp : y = (p, n)
      · rw [hyp, setSlot_same] at hy
        split_ifs at hy with hp
        exact absurd (by rw [mapped, hx]; exact hy.symm) (hsole hp x hxp)
      · rw [setSlot_ne _ _ hyp] at hy
        exact hs.sole x w hx hw y hy

end Update

end Vlsmc.CowProcesses
