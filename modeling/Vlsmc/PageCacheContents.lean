import Vlsmc.PageCacheFrames

/-!
# The bytes that the page cache hands out

A page in the cache stands for a file and an offset. What it holds depends also
on how far the VMA that filled it reaches into the file, and on the file as it
was then.
-/

set_option autoImplicit false

namespace Vlsmc.PageCacheContents
open Vlsmc.ByteMemory Vlsmc.Words Vlsmc.Elf Vlsmc.DemandPaging Vlsmc.PageCache
open Vlsmc.PhysicalMemory Vlsmc.SharedFrames Vlsmc.FreshPages Vlsmc.FreshPagesRuns
open Vlsmc.PageCacheFrames

/-- The bytes of a page that are read from the file. -/
def readSize (v : Vma) (page : ℕ) : ℕ :=
  if page < u32 (v.start+v.fileSize) then
    if u32 (v.start+v.fileSize) < u32 (page+4096) then u32 (v.start+v.fileSize)-page else 4096
  else 0

/-- A page whose first `n` bytes come from the file. -/
def pageBytes (f : File) (offset n : ℕ) : Memory :=
  place (fun _ => 0) 0 n fun i => f.byte (offset+i)

/-- A page of a file, and how much of it is shown. -/
structure Use where
  inode : ℕ
  offset : ℕ
  length : ℕ

def useOf (s : World) (a : Area) (g : Backing) (page : ℕ) : Use :=
  { inode := (World.cacheKey a g page).1
    offset := (World.cacheKey a g page).2
    length := (s.files (World.cacheKey a g page).1).available (World.cacheKey a g page).2
      (readSize (s.vma a g) page) }

/-- The VMA of a fault that goes through the cache. -/
def sharedArea (s : World) (t addr : ℕ) (g : Backing) : Option Area :=
  if (s.threads t).table (addr/4096) = none ∧ s.inHeap t addr = false then
    (s.findArea t addr).filter fun a => (s.vma a g).isReadonly && (s.vma a g).isFile
  else none

def uses (s : World) : Event → List Use
  | .fault t addr g => ((sharedArea s t addr g).map fun a => useOf s a g (pageDown addr)).toList
  | _ => []

def usesRun (s : World) : List Event → List Use
  | [] => []
  | e::es => uses s e++usesRun (step s e) es

/-- Two uses of a page show the same length of it. -/
def Agree (x y : Use) : Prop := x.inode = y.inode → x.offset = y.offset → x.length = y.length

instance (x y : Use) : Decidable (Agree x y) := inferInstanceAs (Decidable (_ → _ → _))

/-- A file of which pages are in the cache does not change. -/
def Unchanged (s : World) : Event → Prop
  | .setFile inode _ => ∀ i, (s.cache i).valid = true → (s.cache i).inode ≠ inode
  | _ => True

def UnchangedRun (s : World) : List Event → Prop
  | [] => True
  | e::es => Unchanged s e ∧ UnchangedRun (step s e) es

/-- The page is what the fault would have read with an empty cache. -/
def Transparent (s : World) : Event → Prop
  | .fault t addr g => ∀ a, sharedArea s t addr g = some a →
    ∀ e, ((step s (.fault t addr g)).threads t).table (addr/4096) = some e →
      (step s (.fault t addr g)).frames e.1 = (s.process t g).fill (s.vma a g) (pageDown addr)
  | _ => True

def TransparentRun (s : World) : List Event → Prop
  | [] => True
  | e::es => Transparent s e ∧ TransparentRun (step s e) es

/-- Each page in the cache holds what one of the earlier faults showed. -/
def Right (s : World) (past : List Use) : Prop := ∀ i, (s.cache i).valid = true →
  ∃ u ∈ past, u.inode = (s.cache i).inode ∧ u.offset = (s.cache i).offset ∧
    s.frames (s.cache i).physFrame = pageBytes (s.files u.inode) u.offset u.length

variable {s : World} {t addr page : ℕ} {g : Backing} {a : Area}

theorem fill_eq (hf : (s.vma a g).isFile = true) :
    (s.process t g).fill (s.vma a g) page = pageBytes (s.files (useOf s a g page).inode)
      (useOf s a g page).offset (useOf s a g page).length := by
  obtain ⟨f, hvn⟩ : ∃ i, (a.backing.getD g).2 = some i := by
    cases h : (a.backing.getD g).2 with
    | some i => exact ⟨i, rfl⟩
    | none => simp [Vma.isFile, World.vma, h] at hf
  have hsource : (s.process t g).source (s.vma a g) = some (s.files f) := by
    unfold Process.source
    rw [if_pos hf, World.vma, hvn]
    rfl
  have hkey : World.cacheKey a g page = (f, u32 (a.fileOffset+(page-a.start))) := by
    rw [World.cacheKey, hvn, Option.getD_some]
  have hstart : (s.vma a g).start = a.start ∧ (s.vma a g).fileSize = a.fileSize ∧
    (s.vma a g).fileOffset = a.fileOffset := ⟨rfl, rfl, rfl⟩
  unfold Process.fill useOf pageBytes readSize
  dsimp only
  rw [hsource, hkey, hstart.1, hstart.2.1, hstart.2.2]
  dsimp only
  split_ifs
  · rfl
  · rfl
  · rw [show (s.files f).available (u32 (a.fileOffset+(page-a.start))) 0 = 0 from Nat.zero_min _]
    funext k
    rw [place_ne _ _ (Or.inr (Nat.zero_le k))]

theorem setFrame_ne (s : World) {f h : ℕ} (m : Memory) (hne : h ≠ f) :
    (s.setFrame f m).frames h = s.frames h := if_neg hne

theorem setFrame_same (s : World) (f : ℕ) (m : Memory) : (s.setFrame f m).frames f = m := if_pos rfl

/-- Nobody writes to a frame that the cache names. -/
theorem step_frames (h : Sound s) {f : ℕ} (hn : Names s.cache f) (e : Event) :
    (step s e).frames f = s.frames f := by
  have hnew : s.pmm.allocFrame.1 ≠ 0 → f ≠ s.pmm.allocFrame.1 := by
    rintro h0 rfl
    exact ((sound_allocated h).2 h0).unnamed hn
  cases e with
  | store t addr v =>
    rw [step, World.store]
    cases he : (s.threads t).table (addr/4096) with
    | none => rfl
    | some e =>
      have hne : e.2.testBit 1 = true ∨ e.2.testBit 9 = true → f ≠ e.1 := by
        rintro hw rfl
        have := h.readonly t _ e he hn
        rw [this.1, this.2] at hw
        simp at hw
      dsimp only
      split_ifs with h1 h2 h3 h4
      · exact setFrame_ne _ _ (hne (Or.inl h1))
      · exact setFrame_ne _ _ (hne (Or.inr h2))
      · rfl
      · exact (setFrame_ne _ _ (hnew h4)).trans (setFrame_ne _ _ (hnew h4))
      · rfl
  | fault t addr g =>
    rw [step]
    split_ifs
    · rfl
    · unfold World.handlePageFault
      dsimp only
      cases s.inHeap t addr with
      | true =>
        rw [if_pos rfl]
        split_ifs <;> rfl
      | false =>
        rw [if_neg (by simp)]
        cases s.findArea t addr with
        | none => rfl
        | some a =>
          dsimp only
          split_ifs with h1 h2
          · rfl
          · rfl
          · have : ∀ w : World, (w.setPage t (pageDown addr/4096)
              (some (s.pmm.allocFrame.1, a.flags))).frames = w.frames := fun _ => rfl
            rw [this, cacheInsert_frames, setFrame_ne _ _ (hnew h2)]
            rfl
  | clearedPage t page flags =>
    rw [step, World.clearedPage]
    split_ifs with h0
    · rfl
    · exact setFrame_ne _ _ (hnew h0)
  | dropPage t page =>
    rw [step, World.dropPage]
    cases (s.threads t).table page <;> rfl
  | forkPage t u page =>
    rw [step, World.forkPage]
    cases (s.threads t).table page with
    | none => rfl
    | some e =>
      dsimp only
      split_ifs <;> rfl
  | forkVmas t u => rfl
  | addVma t a => rfl
  | munmapVmas t start finish => rfl
  | clearVmas t => rfl
  | setHeap t heapStart heapEnd => rfl
  | setName t name => rfl
  | setFile inode f => rfl
  | kernelAlloc => rfl
  | kernelFree frame => rfl

theorem sharedArea_some (h : sharedArea s t addr g = some a) :
    (s.threads t).table (addr/4096) = none ∧ s.inHeap t addr = false ∧
      s.findArea t addr = some a ∧ (s.vma a g).isReadonly = true ∧ (s.vma a g).isFile = true := by
  unfold sharedArea at h
  split_ifs at h with hc
  rw [Option.filter_eq_some_iff, Bool.and_eq_true] at h
  exact ⟨hc.1, hc.2, h.1, h.2.1, h.2.2⟩

theorem sharedArea_of (h1 : (s.threads t).table (addr/4096) = none) (h2 : s.inHeap t addr = false)
    (h3 : s.findArea t addr = some a) (h4 : (s.vma a g).isReadonly = true)
    (h5 : (s.vma a g).isFile = true) : sharedArea s t addr g = some a := by
  unfold sharedArea
  rw [if_pos ⟨h1, h2⟩, Option.filter_eq_some_iff, h4, h5]
  exact ⟨h3, rfl⟩

/-- The cache after a fault: as before, or with the page that was filled. -/
theorem fault_cache (s : World) (t addr : ℕ) (g : Backing) :
    (s.handlePageFault t addr g).cache = s.cache ∨
    ∃ a, s.inHeap t addr = false ∧ s.findArea t addr = some a ∧ (s.vma a g).isReadonly = true ∧
      (s.vma a g).isFile = true ∧ s.pmm.allocFrame.1 ≠ 0 ∧
      (s.handlePageFault t addr g).cache = insert s.cache (useOf s a g (pageDown addr)).inode
        (useOf s a g (pageDown addr)).offset s.pmm.allocFrame.1 ∧
      (s.handlePageFault t addr g).frames s.pmm.allocFrame.1 =
        (s.process t g).fill (s.vma a g) (pageDown addr) := by
  unfold World.handlePageFault
  dsimp only
  cases hheap : s.inHeap t addr with
  | true =>
    left
    rw [if_pos rfl]
    split_ifs <;> rfl
  | false =>
    rw [if_neg (by simp)]
    cases harea : s.findArea t addr with
    | none => exact Or.inl rfl
    | some a =>
      dsimp only
      split_ifs with h1 h2
      · exact Or.inl rfl
      · exact Or.inl rfl
      · have hpage : ∀ w : World, (w.setPage t (pageDown addr/4096)
          (some (s.pmm.allocFrame.1, a.flags))).frames = w.frames ∧ (w.setPage t (pageDown addr/4096)
          (some (s.pmm.allocFrame.1, a.flags))).cache = w.cache := fun _ => ⟨rfl, rfl⟩
        have hvma : ∀ m, (s.allocated.setFrame s.pmm.allocFrame.1 m).vma a g = s.vma a g :=
          fun _ => rfl
        rw [(hpage _).1, (hpage _).2, cacheInsert_frames, setFrame_same]
        unfold World.cacheInsert
        rw [hvma]
        split_ifs with hins
        · exact Or.inr ⟨a, rfl, rfl, hins.2.1, hins.2.2, h2, rfl, rfl⟩
        · exact Or.inl rfl

/-- Only a fault fills the cache, and only the driver changes a file. -/
theorem step_kept (s : World) (e : Event) :
    ((∀ t addr g, e ≠ .fault t addr g) → (step s e).cache = s.cache) ∧
      ((∀ inode f, e ≠ .setFile inode f) → (step s e).files = s.files) := by
  cases e with
  | setFile inode f => exact ⟨fun _ => rfl, fun he => absurd rfl (he inode f)⟩
  | fault t addr g =>
    refine ⟨fun he => absurd rfl (he t addr g), fun _ => ?_⟩
    rw [step]
    split_ifs
    · rfl
    · unfold World.handlePageFault
      dsimp only
      cases s.inHeap t addr with
      | true =>
        rw [if_pos rfl]
        split_ifs <;> rfl
      | false =>
        rw [if_neg (by simp)]
        cases s.findArea t addr with
        | none => rfl
        | some a =>
          unfold World.cacheInsert
          dsimp only
          split_ifs <;> rfl
  | store t addr v =>
    rw [step, World.store]
    cases (s.threads t).table (addr/4096) with
    | none => exact ⟨fun _ => rfl, fun _ => rfl⟩
    | some e =>
      dsimp only
      split_ifs <;> exact ⟨fun _ => rfl, fun _ => rfl⟩
  | clearedPage t page flags =>
    rw [step, World.clearedPage]
    split_ifs <;> exact ⟨fun _ => rfl, fun _ => rfl⟩
  | dropPage t page =>
    rw [step, World.dropPage]
    cases (s.threads t).table page <;> exact ⟨fun _ => rfl, fun _ => rfl⟩
  | forkPage t u page =>
    rw [step, World.forkPage]
    cases (s.threads t).table page with
    | none => exact ⟨fun _ => rfl, fun _ => rfl⟩
    | some e =>
      dsimp only
      split_ifs <;> exact ⟨fun _ => rfl, fun _ => rfl⟩
  | forkVmas t u | addVma t a | munmapVmas t start finish | clearVmas t
  | setHeap t heapStart heapEnd | setName t name | kernelAlloc | kernelFree frame =>
    exact ⟨fun _ => rfl, fun _ => rfl⟩

variable {past : List Use}

theorem right_keep {e : Event} (h : Sound s) (hr : Right s past) (hc : (step s e).cache = s.cache)
    (hf : ∀ i, (s.cache i).valid = true →
      (step s e).files (s.cache i).inode = s.files (s.cache i).inode) : Right (step s e) past := by
  intro i hv
  rw [hc] at hv ⊢
  obtain ⟨u, hu, h1, h2, h3⟩ := hr i hv
  refine ⟨u, hu, h1, h2, ?_⟩
  rw [step_frames h ⟨i, hv, rfl⟩ e, h3, h1, hf i hv]

theorem right_fault (h : Sound s) (hr : Right s past) (t addr : ℕ) (g : Backing) :
    Right (step s (.fault t addr g)) (past++uses s (.fault t addr g)) := by
  have hold : Right s (past++uses s (.fault t addr g)) := by
    intro i hv
    obtain ⟨u, hu, h1⟩ := hr i hv
    exact ⟨u, List.mem_append_left _ hu, h1⟩
  have hfiles := (step_kept s (.fault t addr g)).2 (by simp)
  cases habsent : (s.threads t).table (addr/4096) with
  | some e =>
    refine right_keep h hold ?_ fun i _ => by rw [hfiles]
    rw [step, habsent, if_pos (Option.isSome_some)]
  | none =>
    have hstep : step s (.fault t addr g) = s.handlePageFault t addr g := by
      rw [step, habsent, if_neg (by simp)]
    rcases fault_cache s t addr g with hc | ⟨a, h1, h2, h3, h4, h5, hc, hframe⟩
    · exact right_keep h hold (by rw [hstep, hc]) fun i _ => by rw [hfiles]
    · have huse : useOf s a g (pageDown addr) ∈ uses s (.fault t addr g) := by
        rw [uses, sharedArea_of habsent h1 h2 h3 h4]
        exact List.mem_singleton.mpr rfl
      intro i hv
      have hkeep : ∀ f, Names s.cache f → (step s (.fault t addr g)).frames f = s.frames f :=
        fun f hn => step_frames h hn _
      rw [hfiles]
      rw [hstep] at hv hkeep ⊢
      rw [hc] at hv ⊢
      rcases insert_entry s.cache (useOf s a g (pageDown addr)).inode
        (useOf s a g (pageDown addr)).offset s.pmm.allocFrame.1 i with he | he
      · rw [he] at hv ⊢
        obtain ⟨u, hu, h6, h7, h8⟩ := hold i hv
        exact ⟨u, hu, h6, h7, by rw [hkeep _ ⟨i, hv, rfl⟩, h8]⟩
      · rw [he]
        refine ⟨_, List.mem_append_right _ huse, rfl, rfl, ?_⟩
        dsimp only
        rw [hframe, fill_eq h4]

theorem right_step (h : Sound s) (hr : Right s past) (e : Event) (hu : Unchanged s e) :
    Right (step s e) (past++uses s e) := by
  by_cases hfault : ∃ t addr g, e = .fault t addr g
  · obtain ⟨t, addr, g, rfl⟩ := hfault
    exact right_fault h hr t addr g
  · have hne : ∀ t addr g, e ≠ .fault t addr g := fun t addr g he => hfault ⟨t, addr, g, he⟩
    have hnil : uses s e = [] := by
      cases e with
      | fault t addr g => exact absurd rfl (hne t addr g)
      | _ => rfl
    rw [hnil, List.append_nil]
    refine right_keep h hr ((step_kept s e).1 hne) fun i hv => ?_
    by_cases hfile : ∃ inode f, e = .setFile inode f
    · obtain ⟨inode, f, rfl⟩ := hfile
      exact if_neg (hu i hv)
    · rw [(step_kept s e).2 fun inode f he => hfile ⟨inode, f, he⟩]

/-- A page from the cache, or one that was just filled, shows what the file holds. -/
theorem fault_transparent (hr : Right s past)
    (hagree : ∀ x ∈ past, ∀ y ∈ uses s (.fault t addr g), Agree x y) :
    Transparent s (.fault t addr g) := by
  intro a ha e he
  obtain ⟨h1, h2, h3, h4, h5⟩ := sharedArea_some ha
  have huse : useOf s a g (pageDown addr) ∈ uses s (.fault t addr g) := by
    rw [uses, ha]
    exact List.mem_singleton.mpr rfl
  have hstep : step s (.fault t addr g) = s.handlePageFault t addr g := by
    rw [step, h1, if_neg (by simp)]
  rw [hstep] at he ⊢
  unfold World.handlePageFault at he ⊢
  dsimp only at he ⊢
  rw [h2, if_neg (by simp), h3] at he ⊢
  dsimp only at he ⊢
  have hpage : pageDown addr/4096 = addr/4096 := Nat.mul_div_cancel _ (by decide)
  rw [hpage] at he ⊢
  split_ifs at he ⊢ with h6 h7
  · rw [setPage_table, if_pos ⟨rfl, rfl⟩] at he
    obtain rfl := Option.some.inj he
    have hhit : s.cached a g (pageDown addr) = lookup s.cache (useOf s a g (pageDown addr)).inode
        (useOf s a g (pageDown addr)).offset := by
      rw [World.cached, if_pos (by rw [h4, h5]; rfl)]
      rfl
    rw [hhit] at h6
    obtain ⟨i, hv, hi, ho, hp⟩ := lookup_entry h6
    obtain ⟨u, hu, h8, h9, h10⟩ := hr i hv
    have hlen := hagree u hu _ huse (h8.trans hi) (h9.trans ho)
    dsimp only
    rw [hhit, fill_eq h5, ← hp, ← hlen, ← hi, ← ho, ← h8, ← h9]
    exact h10
  · have hsame : (s.threads t).table (addr/4096) = some e := he
    rw [h1] at hsame
    cases hsame
  · rw [setPage_table, if_pos ⟨rfl, rfl⟩] at he
    obtain rfl := Option.some.inj he
    have hframes : ∀ w : World, (w.setPage t (addr/4096)
      (some (s.pmm.allocFrame.1, a.flags))).frames = w.frames := fun _ => rfl
    dsimp only
    rw [hframes, cacheInsert_frames, setFrame_same]

theorem run_transparent (h : Sound s) (hr : Right s past) (es : List Event) (hm : MappedRun s es)
    (hu : UnchangedRun s es)
    (hagree : ∀ x ∈ past++usesRun s es, ∀ y ∈ past++usesRun s es, Agree x y) :
    TransparentRun s es := by
  induction es generalizing s past with
  | nil => trivial
  | cons e es ih =>
    rw [usesRun, ← List.append_assoc] at hagree
    refine ⟨?_, ih (sound_step h e (spared_of_mapped h e hm.1)) (right_step h hr e hu.1) hm.2 hu.2
      hagree⟩
    cases e with
    | fault t addr g =>
      refine fault_transparent hr fun x hx y hy => hagree x ?_ y ?_
      · exact List.mem_append_left _ (List.mem_append_left _ hx)
      · exact List.mem_append_left _ (List.mem_append_right _ hy)
    | _ => trivial

def bytesFile (b : UInt8) : File := ⟨4096, fun _ => b, page_size_lt⟩

end Vlsmc.PageCacheContents
