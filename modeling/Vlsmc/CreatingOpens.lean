import Vlsmc.CreatedEntries
import Vlsmc.PathStats

/-!
# Files opened for creation

`vfs_open` creates a missing file in the root directory, under the path without its first slash,
and looks at `O_TRUNC` nowhere. The opened file is the one that the path names, and empty, when the
path has no other slash and the file was missing or empty.
-/

set_option autoImplicit false

namespace Vlsmc.CreatingOpens
open Vlsmc.Fat16Layout Vlsmc.Fat16Names Vlsmc.Fat16Volume Vlsmc.Fat16Files
open Vlsmc.Fat16Geometry Vlsmc.Fat16Chains Vlsmc.Fat16Directory Vlsmc.Fat16Updates
open Vlsmc.Fat16Growth Vlsmc.PathLookups Vlsmc.DirectoryEdits Vlsmc.StorableNames Vlsmc.CreatedEntries
open Vlsmc.SeparatedWords Vlsmc.Vfs Vlsmc.VfsDirectories Vlsmc.PathSplitters

def oRdonly : ℕ := 0x0000

def oWronly : ℕ := 0x0001

def oCreat : ℕ := 0x0040

def oTrunc : ℕ := 0x0200

def mapFlags (apiMode : ℤ) : ℕ :=
  if apiMode = 1 then oRdonly
  else if apiMode = 2 then oWronly ||| oCreat ||| oTrunc
  else oRdonly

/-- `vfs_open` with its flags. -/
def openFlags (heap : ℕ → Bool) (createOk : Bool) (s : Session) (path : List UInt8) (flags : ℕ)
    (now : Stamp) : Option (Option Vnode × Session) :=
  vfsOpen heap createOk s path (decide (flags &&& oCreat ≠ 0)) now

/-- The name that a missing file is created under. -/
def createdName (path : List UInt8) : List UInt8 :=
  if path.head? = some slash then path.drop 1 else path

/-- A used slot of the directory. -/
def EntryOf (v : Volume) (d : ℕ) (p : Slot) : Prop := InDir v d p ∧ InUse v p

/-- The opened file is what the path names afterwards, and empty. Where the path named nothing,
its directory has one entry more, with the last component of the path, and all others are the
entries from before. -/
structure CreatesNamed (v w : Volume) (path : List UInt8) (vn : Vnode) : Prop where
  found : vfsResolvePath granted w path = some (some vn)
  empty : vn.size = 0
  added : vfsResolvePath granted v path = some none → ∃ dir p,
    vfsResolvePath granted v (splitParentAndName path).1 = some (some dir) ∧
    ¬ EntryOf v dir.inodeNum p ∧ Finds w dir.inodeNum (splitParentAndName path).2 p ∧
    ∀ d x, EntryOf w d x ↔ EntryOf v d x ∨ (d = dir.inodeNum ∧ x = p)

/-- The root has a second entry with the name, and its file is empty. -/
def SecondEmpty (v : Volume) (name : List UInt8) : Prop :=
  ∃ p x, Finds v 0 name p ∧ Finds (v.updateEntry p DirEntry.markDeleted) 0 name x ∧
    (v.entryAt x).fileSize = 0

section Opened

variable {heap : ℕ → Bool} {createOk : Bool} {s t : Session} {path : List UInt8} {now : Stamp}
  {vn : Vnode}

theorem vnodeCreate_cases {dir : ℕ} {name : List UInt8}
    (h : vnodeCreate createOk s dir name now = some (some vn, t)) :
    writeFileInDir s.volume dir name [] now = some (true, t.volume) ∧
      fat16Lookup true t.volume dir name = some (some vn) := by
  obtain ⟨⟨ok, u⟩, hdriver, h⟩ := Option.bind_eq_some_iff.mp h
  obtain ⟨⟨ok', w⟩, hwrite, hu⟩ := Option.map_eq_some_iff.mp hdriver
  obtain ⟨rfl, rfl⟩ := Prod.mk.inj hu
  cases ok' with
  | false => exact absurd (Prod.mk.inj (Option.some.inj h)).1 (by simp)
  | true =>
    obtain ⟨r, hr, h⟩ := Option.bind_eq_some_iff.mp h
    obtain ⟨rfl, rfl⟩ := Prod.mk.inj (Option.some.inj h)
    obtain ⟨p, hp, -, hvn⟩ := lookup_some.mp hr
    exact ⟨hwrite, lookup_some.mpr ⟨p, hp, rfl, hvn⟩⟩

/-- The path resolves and nothing changes, or the file is created in the root. -/
theorem open_cases (h : openFlags heap createOk s path (mapFlags 2) now = some (some vn, t)) :
    vn.type = .file ∧
    ((vfsResolvePath heap s.volume path = some (some vn) ∧ t.volume = s.volume) ∨
    (vfsResolvePath heap s.volume path = some none ∧
      writeFileInDir s.volume 0 (createdName path) [] now = some (true, t.volume) ∧
      fat16Lookup true t.volume 0 (createdName path) = some (some vn))) := by
  have hcreat : decide (mapFlags 2 &&& oCreat ≠ 0) = true := by decide
  rw [openFlags, hcreat] at h
  obtain ⟨ht, ⟨hfound, rfl⟩ | ⟨hfound, hmade⟩⟩ := vfsOpen_cases h
  · exact ⟨ht, Or.inl ⟨hfound, rfl⟩⟩
  · exact ⟨ht, Or.inr ⟨hfound, vnodeCreate_cases hmade⟩⟩

end Opened

section Root

variable {v w : Volume} {name : List UInt8} {now : Stamp} {p q x : Slot}

/-- A slot of the root is in no other directory. -/
theorem root_slot {d : ℕ} (hq : q ∈ slotsOf v.bpb.rootLbas) (h : InDir v d q) : d = 0 := by
  obtain ⟨L, hL, hqL⟩ := h
  rcases hL with ⟨rfl, -⟩ | ⟨-, t, ht, rfl⟩
  · rfl
  · obtain ⟨c, hc, hlba⟩ := List.mem_flatMap.mp (mem_slotsOf.mp hqL).1
    obtain ⟨h2, htotal⟩ := fatChain_range ht c hc
    exact absurd (mem_slotsOf.mp hq).1 (root_not_cluster v.bpb h2 htotal hlba)

/-- `w` is `v` with the new entry in the first free slot of the root. -/
structure CreatedIn (v w : Volume) (name : List UInt8) (q : Slot) : Prop where
  bpb : w.bpb = v.bpb
  fat : ∀ c, w.fat c = v.fat c
  first : ∃ l₁ l₂, slotsOf v.bpb.rootLbas = l₁++q::l₂ ∧ (∀ y ∈ l₁, InUse v y) ∧ ¬ InUse v q
  size : (w.entryAt q).fileSize = 0
  entry : ∀ d y, InDir v d y → y ≠ q → w.entryAt y = v.entryAt y

theorem created_slot (h : CreatedIn v w name q) : q ∈ slotsOf v.bpb.rootLbas := by
  obtain ⟨l₁, l₂, hl, -⟩ := h.first
  rw [hl]
  simp

/-- What `write_file_in_dir` does with an empty file in the root. -/
theorem create_steps (hw : Working v) (h : writeFileInDir v 0 name [] now = some (true, w)) :
    ∃ v1 q, dropOld v 0 name = some (some v1) ∧ CreatedIn v1 w name q ∧ Written w 0 name q := by
  obtain ⟨q, hslot, hwritten⟩ := writeFileInDir_written hw (root_lbas v) (root_apart v name) h
  obtain ⟨v1, v2, cs, u, q', hdrop, hw1, hstore, -, hfree, hslot', rfl⟩ :=
    writeFileInDir_steps hw (root_lbas v) h
  obtain rfl : q = q' := Option.some.inj (Option.some.inj (hslot.symm.trans hslot'))
  -- nothing is stored
  obtain rfl : v1 = v2 := by
    have hnone : storeLoop [] storeFuel v1 0 0 0 = some (some 0, v1) := rfl
    exact (Prod.mk.inj (Option.some.inj (hnone.symm.trans hstore))).2
  have hflush : Working v1.flushFat := working_congr hw1 rfl rfl (flushFat_size v1)
  have hsame : ∀ d y, InDir v1 d y → v1.flushFat.entryAt y = v1.entryAt y := by
    intro d y ⟨L, hL, hy⟩
    rw [Volume.entryAt, flushFat_frame v1 _ (dirLbas_not_fat hL (mem_slotsOf.mp hy).1),
      Volume.entryAt]
  rw [findFreeDirEntry_root hflush] at hfree
  obtain ⟨hq, rfl⟩ := Prod.mk.inj (Option.some.inj hfree)
  obtain ⟨l₁, a, l₂, hl, ha, hskip⟩ := List.findSome?_eq_some_iff.mp hq
  obtain ⟨rfl, hfree⟩ := freeAt_some ha
  change slotsOf v1.bpb.rootLbas = l₁++q::l₂ at hl
  have hroot : ∀ y ∈ slotsOf v1.bpb.rootLbas, InUse v1.flushFat y ↔ InUse v1 y := fun y hy =>
    inUse_congr (hsame 0 y ⟨_, root_lbas v1, hy⟩)
  have hmem : q ∈ slotsOf v1.bpb.rootLbas := by
    rw [hl]
    simp
  have hread := inDir_readable hflush ⟨_, root_lbas v1.flushFat, hmem⟩
  refine ⟨v1, q, hdrop, ⟨rfl, fun _ => rfl, ⟨l₁, l₂, hl, fun y hy => ?_, ?_⟩, ?_, ?_⟩, hwritten⟩
  · exact (hroot y (by simp [hl, hy])).mp (freeAt_none (hskip y hy))
  · rw [← hroot q (by simp [hl])]
    exact fun hused => hfree.elim hused.1 hused.2
  · rw [updateEntry_entryAt _ q _ hread, setAt_same]
    rfl
  · intro d y hy hne
    rw [updateEntry_entryAt _ q _ hread, setAt_ne _ _ hne, hsame d y hy]

/-- The created entry is all that is new. -/
theorem created_adds (h : CreatedIn v w name q) (hq : InUse w q) (d : ℕ) (y : Slot) :
    EntryOf w d y ↔ EntryOf v d y ∨ (d = 0 ∧ y = q) := by
  have hdir : InDir w d y ↔ InDir v d y := Fat16Soundness.rewrite_inDir h.bpb h.fat
  have hslot := created_slot h
  obtain ⟨l₁, l₂, -, -, hfree⟩ := h.first
  unfold EntryOf
  rw [hdir]
  by_cases hy : y = q
  · subst hy
    constructor
    · exact fun he => Or.inr ⟨root_slot hslot he.1, rfl⟩
    · rintro (he | ⟨rfl, -⟩)
      · exact absurd he.2 hfree
      · exact ⟨⟨_, root_lbas v, hslot⟩, hq⟩
  · constructor
    · exact fun he => Or.inl ⟨he.1, (inUse_congr (h.entry d y he.1 hy)).mp he.2⟩
    · rintro (he | ⟨-, he⟩)
      · exact ⟨he.1, (inUse_congr (h.entry d y he.1 hy)).mpr he.2⟩
      · exact absurd he hy

theorem finds_congr {u : Volume} {d : ℕ} {L : List ℕ} (hw : Working w) (hu : Working u)
    (hL : DirLbas w d L) (hM : DirLbas u d L) (h : ∀ y ∈ slotsOf L,
      ((w.entryAt y).isEnd ↔ (u.entryAt y).isEnd) ∧
        (Answers (w.entryAt y) name ↔ Answers (u.entryAt y) name)) :
    Finds w d name x ↔ Finds u d name x := by
  rw [finds_slots hw hL, finds_slots hu hM]
  apply exists_congr
  intro l₁
  apply exists_congr
  intro l₂
  apply and_congr_right
  intro hl
  apply and_congr
  · exact (h x (by rw [hl]; simp)).2
  · apply forall₂_congr
    intro y hy
    obtain ⟨hend, hans⟩ := h y (by rw [hl]; simp [hy])
    rw [hend, hans]

/-- The slot of the dropped entry is free, so the new one is not behind it. -/
theorem created_before {v1 : Volume} (hw : Working v) (hp : Finds v 0 name p)
    (hd : Drops v v1 p) (h : CreatedIn v1 w name q) (hq : q ≠ p) : ¬ (v.entryAt q).isEnd := by
  obtain ⟨m₁, m₂, hm, -, hbefore⟩ := (finds_slots hw (root_lbas v)).mp hp
  obtain ⟨l₁, l₂, hl, hused, -⟩ := h.first
  rw [hd.bpb] at hl
  have hnodup := slotsOf_nodup (dirLbas_nodup (root_lbas v))
  have hmem : q ∈ m₁++p::m₂ := by
    rw [← hm, hl]
    simp
  rcases List.mem_append.mp hmem with hq₁ | hq₂
  · exact (hbefore q hq₁).1
  · -- otherwise the slot of the dropped entry would be in use
    have hq₃ := (List.mem_cons.mp hq₂).resolve_left hq
    have hsub : [p, q].Sublist (l₁++q::l₂) := by
      rw [← hl, hm]
      exact ((List.singleton_sublist.mpr hq₃).cons_cons p).trans (List.sublist_append_right m₁ _)
    have hp₁ := (pair_sublist (by rwa [← hl])).mp hsub
    have hdel := (hused p hp₁).2
    rw [drops_slot hw (root_lbas v) hp hd, setAt_same] at hdel
    exact absurd (markDeleted_deleted _) hdel

/-- A created entry that does not read as its name hides no other. -/
theorem created_hidden {v1 : Volume} (hw : Working v) (h0 : 0 ∉ name) (hp : Finds v 0 name p)
    (hd : Drops v v1 p) (h : CreatedIn v1 w name q) (hwritten : Written w 0 name q)
    (hs : ¬ Storable name) :
    Finds w 0 name x ↔ Finds (v.updateEntry p DirEntry.markDeleted) 0 name x := by
  have hin : p ∈ slotsOf v.bpb.rootLbas := (findDirEntry_found hw (root_lbas v) hp).1
  have hread := inDir_readable hw ⟨_, root_lbas v, hin⟩
  have hbpb : w.bpb = v.bpb := h.bpb.trans hd.bpb
  have hroot : DirLbas w 0 v.bpb.rootLbas := by
    rw [← hbpb]
    exact root_lbas w
  have hmarked : Working (v.updateEntry p DirEntry.markDeleted) :=
    working_congr hw rfl rfl (updateEntry_size v p _)
  have hmarkedRoot : DirLbas (v.updateEntry p DirEntry.markDeleted) 0 v.bpb.rootLbas := root_lbas v
  apply finds_congr hwritten.working hmarked hroot hmarkedRoot
  intro y hy
  rw [updateEntry_entryAt v p _ hread]
  by_cases hyq : y = q
  · subst hyq
    obtain ⟨e', -, -, hend, -⟩ := fresh_name hwritten.entry
    have hmine : ¬ (w.entryAt y).isEnd := fun he => format83_not_end h0 e' (hend.mp he)
    have hold : ¬ (setAt v.entryAt p (v.entryAt p).markDeleted y).isEnd := by
      by_cases hyp : y = p
      · rw [hyp, setAt_same]
        exact markDeleted_not_end _
      · rw [setAt_ne _ _ hyp]
        exact created_before hw hp hd h hyp
    obtain ⟨l₁, l₂, -, -, hfree⟩ := h.first
    refine ⟨iff_of_false hmine hold, iff_of_false ?_ ?_⟩
    · exact fun ha => hs ((fresh_answers h0 hwritten.entry).mp ha)
    · rw [← drops_slot hw (root_lbas v) hp hd]
      exact fun ha => hfree ⟨ha.1.used, ha.1.kept⟩
  · have hiny : InDir v1 0 y := ⟨_, root_lbas v1, by rwa [hd.bpb]⟩
    rw [h.entry 0 y hiny hyq, drops_slot hw (root_lbas v) hp hd]
    exact ⟨Iff.rfl, Iff.rfl⟩

/-- Among names that cannot be stored, the one that is found is the second of the volume. -/
theorem hidden_empty {v1 : Volume} {vn : Vnode} (hw : Working v) (h0 : 0 ∉ name)
    (hp : Finds v 0 name p) (hd : Drops v v1 p) (h : CreatedIn v1 w name q)
    (hwritten : Written w 0 name q) (hs : ¬ Storable name)
    (hvn : fat16Lookup true w 0 name = some (some vn)) : vn.size = 0 ↔ SecondEmpty v name := by
  obtain ⟨x, hx, -, rfl⟩ := lookup_some.mp hvn
  have hsecond := (created_hidden hw h0 hp hd h hwritten hs).mp hx
  have hin : x ∈ slotsOf w.bpb.rootLbas :=
    (findDirEntry_found hwritten.working (root_lbas w) hx).1
  have hxq : x ≠ q := by
    rintro rfl
    exact hs ((written_finds h0 hwritten).mp hx)
  have hread := inDir_readable hw ⟨_, root_lbas v, (findDirEntry_found hw (root_lbas v) hp).1⟩
  have hmarked : Working (v.updateEntry p DirEntry.markDeleted) :=
    working_congr hw rfl rfl (updateEntry_size v p _)
  have hxp : x ≠ p := by
    rintro rfl
    have hkept := (findDirEntry_found hmarked (root_lbas _) hsecond).2.1.kept
    rw [updateEntry_entryAt v x _ hread, setAt_same] at hkept
    exact hkept (markDeleted_deleted _)
  have hsame : w.loadEntry x = v.entryAt x := by
    have hinx : InDir v1 0 x := ⟨_, root_lbas v1, by rwa [← h.bpb]⟩
    rw [loadEntry_eq hwritten.working ⟨_, root_lbas w, hin⟩, h.entry 0 x hinx hxq,
      drops_slot hw (root_lbas v) hp hd, setAt_ne _ _ hxp]
  have hsize : (v.entryAt x).fileSize.toNat = 0 ↔ (v.entryAt x).fileSize = 0 := by
    rw [← UInt32.toNat_inj]
    rfl
  dsimp only
  rw [hsame, hsize]
  constructor
  · exact fun he => ⟨p, x, hp, hsecond, he⟩
  · rintro ⟨p', x', hp', hx', he⟩
    obtain rfl := finds_unique hp hp'
    rwa [finds_unique hsecond hx']

end Root

section Named

variable {v w : Volume} {path name : List UInt8} {vn : Vnode}

theorem createdName_cases (path : List UInt8) :
    path = createdName path ∨ path = slash::createdName path := by
  unfold createdName
  cases path with
  | nil => exact Or.inl rfl
  | cons c path =>
    by_cases hc : c = slash
    · exact Or.inr (by simp [hc])
    · exact Or.inl (by simp [hc])

/-- The path has one component, and its directory part is the root. -/
theorem one_word (hs : slash ∉ createdName path) (hne : createdName path ≠ []) :
    words slash path = [createdName path] ∧
      splitParentAndName path = ([slash], (createdName path).take 63) := by
  rcases createdName_cases path with h | h
  · have hsplit := split_none (lastSlash_none hs)
    rw [← h] at hs hne hsplit ⊢
    exact ⟨words_word hs hne, hsplit⟩
  · have hsplit := split_some (lastSlash_append [] hs)
    rw [List.nil_append, ← h] at hsplit
    rw [hsplit]
    constructor
    · conv_lhs => rw [h]
      rw [words_sep, words_word hs hne]
    · conv_lhs => rw [h]
      rfl

theorem resolve_one (hs : slash ∉ createdName path) (hne : createdName path ≠ []) :
    vfsResolvePath granted w path = some (some vn) ↔
      fat16Lookup true w 0 (createdName path) = some (some vn) := by
  rw [resolve_words, (one_word hs hne).1]
  have hsnoc := @walk_snoc w (createdName path) vn [] 0 rootVnode
  rw [List.nil_append] at hsnoc
  rw [hsnoc, walk]
  simp [rootVnode]

/-- The components of a path have no slash, and so have the names of resolved vnodes. -/
theorem resolve_name {n : List UInt8} {d : ℕ}
    (h : vfsResolvePath granted w path = some (some vn)) (hn : vn.nodeData = some (n, d)) :
    slash ∉ n := by
  rw [resolve_words] at h
  rcases List.eq_nil_or_concat (words slash path) with hnil | ⟨cs, c, hcs⟩
  · rw [hnil, walk] at h
    obtain rfl := Option.some.inj (Option.some.inj h)
    cases hn
  · rw [hcs, List.concat_eq_append, walk_snoc] at h
    obtain ⟨dir, -, hlook⟩ := h
    obtain ⟨p, -, -, rfl⟩ := lookup_some.mp hlook
    obtain ⟨rfl, -⟩ := Prod.mk.inj (Option.some.inj hn)
    exact fun hm => words_clean path (by simp [hcs]) (List.mem_of_mem_take hm)

theorem found_short {d : ℕ} (h : fat16Lookup true w d name = some (some vn)) :
    name.length ≤ 12 := by
  by_contra hlong
  exact lookup_long_fails (by omega) d vn h

theorem root_resolves (v : Volume) : vfsResolvePath granted v [slash] = some (some rootVnode) := rfl

end Named

section Main

variable {heap : ℕ → Bool} {createOk : Bool} {s t : Session} {path : List UInt8} {now : Stamp}
  {vn : Vnode}

/-- A name with a slash is never the last component of a path. -/
theorem slash_not_found {w : Volume} (hs : slash ∈ createdName path)
    (h : fat16Lookup true w 0 (createdName path) = some (some vn)) :
    vfsResolvePath granted w path ≠ some (some vn) := by
  intro hres
  have hshort := found_short h
  obtain ⟨p, -, -, rfl⟩ := lookup_some.mp h
  have hclean := resolve_name hres rfl
  rw [List.take_of_length_le hshort] at hclean
  exact hclean hs

/-- The created file, when its name has no slash. -/
theorem create_iff {v w : Volume} (hw : Working v) (h0 : 0 ∉ createdName path)
    (hs : slash ∉ createdName path) (hne : createdName path ≠ [])
    (hwrite : writeFileInDir v 0 (createdName path) [] now = some (true, w))
    (hlook : fat16Lookup true w 0 (createdName path) = some (some vn)) :
    CreatesNamed v w path vn ↔
      Storable (createdName path) ∨ SecondEmpty v (createdName path) := by
  obtain ⟨v1, q, hdrop, hin, hwritten⟩ := create_steps hw hwrite
  have hfinds := written_finds h0 hwritten
  have hfound : vfsResolvePath granted w path = some (some vn) := (resolve_one hs hne).mpr hlook
  -- the found entry is the new one, and empty
  have hnew : Storable (createdName path) → vn.size = 0 := by
    intro hstore
    obtain ⟨x, hx, -, rfl⟩ := lookup_some.mp hlook
    obtain rfl := finds_unique hx (hfinds.mpr hstore)
    have hinx : InDir w 0 x := ⟨_, root_lbas w, (findDirEntry_found hwritten.working
      (root_lbas w) hx).1⟩
    dsimp only
    rw [loadEntry_eq hwritten.working hinx, hin.size]
    rfl
  have hshort := found_short hlook
  have hsplit : splitParentAndName path = ([slash], createdName path) := by
    rw [(one_word hs hne).2, List.take_of_length_le (by omega)]
  rcases dropOld_cases hw (root_lbas v) hdrop with ⟨hnone, hsame⟩ | ⟨p, hp, hd⟩
  · -- no entry had the name
    obtain rfl : v = v1 := hsame.symm
    have hmissing : vfsResolvePath granted v path = some none := by
      have hno : fat16Lookup true v 0 (createdName path) = some none := by
        rw [fat16Lookup, hnone]
        rfl
      rw [resolve_words, (one_word hs hne).1, walk, show granted 0 = true from rfl]
      simp only [rootVnode, hno]
    have hsecond : ¬ SecondEmpty v (createdName path) := by
      rintro ⟨p, -, hp, -⟩
      rw [Finds, hnone] at hp
      cases hp
    rw [or_iff_left hsecond]
    constructor
    · intro h
      obtain ⟨dir, p, hdir, hfree, hp, -⟩ := h.added hmissing
      rw [hsplit, root_resolves] at hdir
      obtain rfl := Option.some.inj (Option.some.inj hdir)
      rw [hsplit] at hp
      obtain ⟨hpw, hshown, -⟩ := findDirEntry_found hwritten.working (root_lbas w) hp
      have hpv : InDir v 0 p := ⟨_, root_lbas v, by rwa [← hin.bpb]⟩
      have hpq : p = q := by
        by_contra hpq
        refine hfree ⟨hpv, ?_⟩
        rw [← inUse_congr (hin.entry 0 p hpv hpq)]
        exact ⟨hshown.used, hshown.kept⟩
      exact hfinds.mp (hpq ▸ hp)
    · intro hstore
      have hq := hfinds.mpr hstore
      have hshown := (findDirEntry_found hwritten.working (root_lbas w) hq).2.1
      obtain ⟨-, -, -, -, hfree⟩ := hin.first
      refine ⟨hfound, hnew hstore, fun _ => ⟨rootVnode, q, ?_, fun he => hfree he.2, ?_, ?_⟩⟩
      · rw [hsplit]
        exact root_resolves v
      · rw [hsplit]
        exact hq
      · exact created_adds hin ⟨hshown.used, hshown.kept⟩
  · -- the entry of the name was dropped
    have hexists : vfsResolvePath granted v path ≠ some none := by
      intro hnone
      rw [(resolve_one hs hne).mpr (lookup_some.mpr ⟨p, hp, rfl, rfl⟩)] at hnone
      cases hnone
    have hiff : CreatesNamed v w path vn ↔ vn.size = 0 :=
      ⟨fun h => h.empty, fun h => ⟨hfound, h, fun hnone => absurd hnone hexists⟩⟩
    rw [hiff]
    by_cases hstore : Storable (createdName path)
    · exact iff_of_true (hnew hstore) (Or.inl hstore)
    · rw [or_iff_right hstore]
      exact hidden_empty hw h0 hp hd hin hwritten hstore hlook

/-- `vfs_open` with the flags of mode 2 creates the file that the path names, and it is empty,
exactly when an existing file was empty, and a missing one is created under a name without a slash
that its entry can hold. -/
theorem open_creates_iff (hw : Working s.volume) (h0 : 0 ∉ path)
    (h : openFlags heap createOk s path (mapFlags 2) now = some (some vn, t)) :
    CreatesNamed s.volume t.volume path vn ↔
      (∀ old, vfsResolvePath heap s.volume path = some (some old) → old.size = 0) ∧
      (vfsResolvePath heap s.volume path = some none → slash ∉ createdName path ∧
        (Storable (createdName path) ∨ SecondEmpty s.volume (createdName path))) := by
  obtain ⟨ht, ⟨hres, hsame⟩ | ⟨hres, hwrite, hlook⟩⟩ := open_cases h
  · have hall := (PathStats.resolve_granted.mp hres).1
    rw [hsame, hres]
    constructor
    · intro hc
      refine ⟨fun old hold => ?_, fun hnone => absurd hnone (by simp)⟩
      obtain rfl := Option.some.inj (Option.some.inj hold)
      exact hc.empty
    · intro hc
      exact ⟨hall, hc.1 vn rfl, fun hnone => absurd (hall.symm.trans hnone) (by simp)⟩
  · rw [hres]
    have hne : createdName path ≠ [] := by
      intro hnil
      rcases createdName_cases path with hp | hp
      · rw [hp, hnil] at hres
        cases hres
      · rw [hp, hnil] at hres
        cases hres
    have hmem : 0 ∉ createdName path := by
      intro hm
      rcases createdName_cases path with hp | hp
      · exact h0 (hp ▸ hm)
      · exact h0 (hp ▸ List.mem_cons_of_mem _ hm)
    by_cases hs : slash ∈ createdName path
    · refine iff_of_false (fun hc => slash_not_found hs hlook hc.found) fun hc => ?_
      exact (hc.2 rfl).1 hs
    · rw [create_iff hw hmem hs hne hwrite hlook]
      constructor
      · exact fun hc => ⟨fun old hold => absurd hold (by simp), fun _ => ⟨hs, hc⟩⟩
      · exact fun hc => (hc.2 rfl).2

/-- The file `/A` on an empty volume. -/
theorem open_creates_A : ∃ vn t, openFlags granted true ⟨Fat16Runs.blank, []⟩ [slash, 0x41]
    (mapFlags 2) ⟨0, 0⟩ = some (some vn, t) ∧
      CreatesNamed Fat16Runs.blank t.volume [slash, 0x41] vn := by
  have hok : (openFlags granted true ⟨Fat16Runs.blank, []⟩ [slash, 0x41] (mapFlags 2)
      ⟨0, 0⟩).map (fun r => r.1.isSome) = some true := by decide +kernel
  obtain ⟨⟨r, t⟩, h, hr⟩ := Option.map_eq_some_iff.mp hok
  obtain ⟨vn, rfl⟩ := Option.isSome_iff_exists.mp hr
  have hnone : vfsResolvePath granted Fat16Runs.blank [slash, 0x41] = some none := by
    decide +kernel
  refine ⟨vn, t, h, (open_creates_iff Fat16Runs.blank_working (by decide) h).mpr ⟨?_, ?_⟩⟩
  · intro old hold
    rw [hnone] at hold
    cases hold
  · exact fun _ => ⟨by decide, Or.inl storable_A⟩

/-- An existing file keeps its content, and `D/A` is created in the root and is not found. -/
theorem open_keeps_and_misplaces :
    (∃ v vn t, writeFileInDir Fat16Runs.blank 0 [0x41] [1, 2, 3] ⟨0, 0⟩ = some (true, v) ∧
      openFlags granted true ⟨v, []⟩ [slash, 0x41] (mapFlags 2) ⟨0, 0⟩ = some (some vn, t) ∧
      vn.size = 3 ∧ ¬ CreatesNamed v t.volume [slash, 0x41] vn) ∧
    ∃ vn t, openFlags granted true ⟨Fat16Runs.blank, []⟩ [0x44, slash, 0x41] (mapFlags 2) ⟨0, 0⟩ =
      some (some vn, t) ∧ vfsResolvePath granted t.volume [0x44, slash, 0x41] = some none ∧
      ¬ CreatesNamed Fat16Runs.blank t.volume [0x44, slash, 0x41] vn := by
  constructor
  · let kept : Option (Bool × Option ℕ) := do
      let (ok, v) ← writeFileInDir Fat16Runs.blank 0 [0x41] [1, 2, 3] ⟨0, 0⟩
      let (r, _) ← openFlags granted true ⟨v, []⟩ [slash, 0x41] (mapFlags 2) ⟨0, 0⟩
      return (ok, r.map Vnode.size)
    have hkept : kept = some (true, some 3) := by decide +kernel
    obtain ⟨⟨ok, v⟩, hv, hrest⟩ := Option.bind_eq_some_iff.mp hkept
    obtain ⟨⟨r, t⟩, ht, hends⟩ := Option.bind_eq_some_iff.mp hrest
    obtain ⟨rfl, hr⟩ := Prod.mk.inj (Option.some.inj hends)
    obtain ⟨vn, rfl, hsize⟩ := Option.map_eq_some_iff.mp hr
    refine ⟨v, vn, t, hv, ht, hsize, fun hc => ?_⟩
    rw [hc.empty] at hsize
    cases hsize
  · let misplaced : Option (Bool × Option (Option Vnode)) := do
      let (r, t) ← openFlags granted true ⟨Fat16Runs.blank, []⟩ [0x44, slash, 0x41] (mapFlags 2)
        ⟨0, 0⟩
      return (r.isSome, vfsResolvePath granted t.volume [0x44, slash, 0x41])
    have hmisplaced : misplaced = some (true, some none) := by decide +kernel
    obtain ⟨⟨r, t⟩, ht, hends⟩ := Option.bind_eq_some_iff.mp hmisplaced
    obtain ⟨hr, hnone⟩ := Prod.mk.inj (Option.some.inj hends)
    obtain ⟨vn, rfl⟩ := Option.isSome_iff_exists.mp hr
    refine ⟨vn, t, ht, hnone, fun hc => ?_⟩
    have hfound := hc.found
    rw [hnone] at hfound
    cases hfound

end Main

end Vlsmc.CreatingOpens
