import Vlsmc.VfsDirectories
import Vlsmc.Fat16ReadBounds
import Vlsmc.SeparatedWords

/-!
# The path splitters

`vfs_resolve_path` reads a path from the front, through a buffer of 64 bytes; the calls that
need a parent directory cut it at the last slash, each in its own text. The front reader looks
up the words between slashes, whatever their length, since no entry has a name of more than
twelve characters, and the cut leaves out just the last of them.
-/

set_option autoImplicit false

namespace Vlsmc.PathSplitters
open Vlsmc.Fat16Layout Vlsmc.Fat16Names Vlsmc.Fat16Volume Vlsmc.Fat16Files Vlsmc.Vfs
open Vlsmc.VfsDirectories Vlsmc.SeparatedWords

section Splitters

/-- `for (i = start; i < last_slash && i < stop; i++) dir_path[i] = path[i]`, with `room` the
distance from `start` to `stop`. -/
def copyDir (path : List UInt8) (lastSlash : ℕ) : ℕ → ℕ → List UInt8
  | 0, _ => []
  | room+1, i => if i < lastSlash then path.getD i 0::copyDir path lastSlash room (i+1) else []

/-- `for (i = start; path[i] && o < room; i++) filename[o++] = path[i]`. -/
def copyName (path : List UInt8) : ℕ → ℕ → List UInt8
  | 0, _ => []
  | room+1, i => match path[i]? with
    | none => []
    | some c => c::copyName path room (i+1)

/-- The cases of `vfs_stat`: no slash, one at the front, or a later one. -/
def statSplit (path : List UInt8) : List UInt8 × List UInt8 :=
  match lastSlash path with
  | none => ([slash], copyName path 63 0)
  | some last => (if last = 0 then [slash] else copyDir path last 255 0, copyName path 63 (last+1))

/-- The directory of `vfs_unlink`, and its name, which the loop behind the cases writes whatever
the first of them put there. -/
def unlinkSplit (path : List UInt8) : Option (List UInt8 × List UInt8) :=
  if lastSlash path = some 0 ∧ path[1]? = none then none
  else
    let dir := match lastSlash path with
      | none => [slash]
      | some last => if last = 0 then [slash] else copyDir path last 255 0
    some (dir, copyName path 63 (match lastSlash path with | none => 0 | some last => last+1))

/-- `vfs_write_file` has the text of `vfs_stat`. -/
def writeFileSplit (path : List UInt8) : List UInt8 × List UInt8 := statSplit path

/-- `vfs_mkdir` has the text of `vfs_unlink`. -/
def mkdirSplit (path : List UInt8) : Option (List UInt8 × List UInt8) := unlinkSplit path

/-- `split_parent_and_name` for buffers of the given sizes. -/
def splitParentAndNameMax (path : List UInt8) (dirMax nameMax : ℕ) : List UInt8 × List UInt8 :=
  match lastSlash path with
  | none => ([slash], copyName path (nameMax-1) 0)
  | some 0 => ([slash], copyName path (nameMax-1) 1)
  | some last => (copyDir path last (dirMax-1) 0, copyName path (nameMax-1) (last+1))

variable {path : List UInt8}

theorem copyName_eq (room i : ℕ) : copyName path room i = (path.drop i).take room := by
  induction room generalizing i with
  | zero => simp [copyName]
  | succ room ih =>
    rw [copyName]
    cases hi : path[i]? with
    | none =>
      rw [List.drop_eq_nil_of_le (List.getElem?_eq_none_iff.mp hi), List.take_nil]
    | some c =>
      obtain ⟨hlt, rfl⟩ := List.getElem?_eq_some_iff.mp hi
      rw [List.drop_eq_getElem_cons hlt, List.take_succ_cons, ih]

theorem copyDir_eq (last room i : ℕ) (h : last ≤ path.length) :
    copyDir path last room i = ((path.take last).drop i).take room := by
  induction room generalizing i with
  | zero => simp [copyDir]
  | succ room ih =>
    have hlen : (path.take last).length = last := by rw [List.length_take, Nat.min_eq_left h]
    rw [copyDir]
    by_cases hi : i < last
    · rw [if_pos hi, List.drop_eq_getElem_cons (by omega), List.take_succ_cons, ih,
        List.getElem_take, List.getD_eq_getElem?_getD, List.getElem?_eq_getElem (by omega)]
      rfl
    · rw [if_neg hi, List.drop_eq_nil_of_le (by omega), List.take_nil]

theorem lastSlash_lt {i : ℕ} (h : lastSlash path = some i) : i < path.length := by
  simpa using List.mem_of_find?_eq_some h

theorem split_none (h : lastSlash path = none) :
    splitParentAndName path = ([slash], path.take 63) := by
  rw [splitParentAndName, h]

theorem split_some {i : ℕ} (h : lastSlash path = some i) : splitParentAndName path =
    (if i = 0 then [slash] else (path.take i).take 255, (path.drop (i+1)).take 63) := by
  rw [splitParentAndName, h]
  cases i <;> rfl

/-- All the texts compute the same. -/
theorem statSplit_eq : statSplit path = splitParentAndName path := by
  unfold statSplit
  cases h : lastSlash path with
  | none => rw [split_none h, copyName_eq, List.drop_zero]
  | some last =>
    have hlt := lastSlash_lt h
    rw [split_some h]
    dsimp only
    rw [copyName_eq, copyDir_eq _ _ _ (by omega), List.drop_zero]

theorem splitParentAndNameMax_eq :
    splitParentAndNameMax path 256 64 = splitParentAndName path := by
  unfold splitParentAndNameMax
  cases h : lastSlash path with
  | none => rw [split_none h, copyName_eq, List.drop_zero]
  | some last =>
    have hlt := lastSlash_lt h
    rw [split_some h]
    cases last with
    | zero => exact congrArg ([slash], ·) (copyName_eq 63 1)
    | succ last =>
      have hdir : copyDir path (last+1) 255 0 = ((path.take (last+1)).drop 0).take 255 :=
        copyDir_eq (last+1) 255 0 (by omega)
      exact congrArg₂ Prod.mk hdir (copyName_eq 63 (last+2))

/-- The test for the root. -/
theorem root_only : (lastSlash path = some 0 ∧ path[1]? = none) ↔ path = [slash] := by
  constructor
  · rintro ⟨h0, h1⟩
    have hlt := lastSlash_lt h0
    have hle := List.getElem?_eq_none_iff.mp h1
    obtain ⟨c, rfl⟩ := List.length_eq_one_iff.mp (by omega : path.length = 1)
    simpa using List.find?_some h0
  · rintro rfl
    exact ⟨by decide, rfl⟩

theorem unlinkSplit_eq : unlinkSplit path =
    if path = [slash] then none else some (splitParentAndName path) := by
  unfold unlinkSplit
  rw [if_congr root_only rfl rfl, ← statSplit_eq, statSplit]
  cases lastSlash path <;> rfl

end Splitters

section Cuts

/-- A path without a slash. -/
theorem lastSlash_none {w : List UInt8} (hw : slash ∉ w) : lastSlash w = none := by
  rw [lastSlash, List.find?_eq_none]
  intro i hi hc
  have hlt : i < w.length := by simpa using hi
  rw [List.getD_eq_getElem _ _ hlt, beq_iff_eq] at hc
  exact hw (hc ▸ List.getElem_mem hlt)

/-- A path with a last slash. -/
theorem lastSlash_append (p : List UInt8) {w : List UInt8} (hw : slash ∉ w) :
    lastSlash (p++slash::w) = some p.length := by
  have hafter : ∀ i ∈ ((List.range w.length).map (p.length+1+·)).reverse,
      ¬ ((p++slash::w).getD i 0 == slash) = true := by
    intro i hi hc
    obtain ⟨j, hj, rfl⟩ : ∃ j < w.length, p.length+1+j = i := by simpa using hi
    have hget : (p++slash::w).getD (p.length+1+j) 0 = w[j] := by
      rw [List.getD_append_right _ _ _ _ (by omega), show p.length+1+j-p.length = j+1 by omega,
        List.getD_cons_succ, List.getD_eq_getElem _ _ hj]
    rw [hget, beq_iff_eq] at hc
    exact hw (hc ▸ List.getElem_mem hj)
  have hlen : (p++slash::w).length = p.length+1+w.length := by
    rw [List.length_append, List.length_cons]
    omega
  rw [lastSlash, hlen, List.range_add, List.reverse_append, List.find?_append,
    List.find?_eq_none.mpr hafter, List.range_succ, List.reverse_append, List.find?_append]
  simp

/-- The words of the parent and the name, which is cut to what its buffer holds. -/
theorem split_words {path : List UInt8} (hne : path ≠ []) (hlast : path.getLast? ≠ some slash)
    (hdir : ∀ i ∈ lastSlash path, i ≤ 255) : ∃ name, slash ∉ name ∧
      words slash path = words slash (splitParentAndName path).1++[name] ∧
      (splitParentAndName path).2 = name.take 63 := by
  rcases last_separator slash path with h | ⟨p, w, rfl, hw⟩
  · refine ⟨path, h, ?_, ?_⟩
    · rw [split_none (lastSlash_none h), words_word h hne]
      rfl
    · rw [split_none (lastSlash_none h)]
  · have hwne : w ≠ [] := by
      rintro rfl
      exact hlast (by simp)
    have hsplit := split_some (lastSlash_append p hw)
    have hlen : p.length ≤ 255 := hdir _ (lastSlash_append p hw)
    refine ⟨w, hw, ?_, ?_⟩
    · rw [words_append, words_word hw hwne, hsplit]
      dsimp only
      rw [List.take_left, List.take_of_length_le (by omega)]
      split_ifs with hp
      · rw [List.length_eq_zero_iff.mp hp]
        rfl
      · rfl
    · rw [hsplit, ← List.drop_drop, List.drop_left]
      rfl

end Cuts

section Walks

variable {v : Volume}

/-- Names that no entry can have are all looked up alike. -/
theorem long_mismatch {name : List UInt8} (h : 12 < name.length) (e : DirEntry) :
    matchFilename e name = false := by
  rw [← Bool.not_eq_true, matchFilename_iff]
  intro hn
  have hlen := congrArg List.length hn
  have hbase : ((List.ofFn e.name).takeWhile (· ≠ space)).length ≤ 8 :=
    (List.takeWhile_sublist _).length_le.trans (by simp)
  have hext : ((List.ofFn e.ext).takeWhile (· ≠ space)).length ≤ 3 :=
    (List.takeWhile_sublist _).length_le.trans (by simp)
  have hclean : (cleanFat e).length ≤ 12 := by
    rw [cleanFat, List.length_append]
    split_ifs
    · rw [List.length_cons]
      omega
    · rw [List.length_nil]
      omega
  have hdecoded : (decodedName e).length ≤ 12 :=
    (List.takeWhile_sublist _).length_le.trans hclean
  rw [List.length_map, List.length_map] at hlen
  omega

theorem findDirEntry_long {name name' : List UInt8} (h : 12 < name.length)
    (h' : 12 < name'.length) (dir : ℕ) : v.findDirEntry dir name = v.findDirEntry dir name' := by
  have hsame : v.probeSector name = v.probeSector name' := by
    funext lba
    have hprobe : Volume.probeEntry name = Volume.probeEntry name' := by
      funext s lba i
      rw [Volume.probeEntry, Volume.probeEntry, long_mismatch h, long_mismatch h']
    rw [Volume.probeSector, Volume.probeSector, hprobe]
  rw [Volume.findDirEntry, Volume.findDirEntry, hsame]

theorem long_not_found {name : List UInt8} (h : 12 < name.length) (dir : ℕ) (p : Slot) :
    v.findDirEntry dir name ≠ some (some p) := by
  intro hp
  have hmatch := (Fat16ReadBounds.found_entry hp).2
  rw [long_mismatch h] at hmatch
  exact absurd hmatch (by decide)

theorem lookup_long {name name' : List UInt8} (h : 12 < name.length) (h' : 12 < name'.length)
    (dir : ℕ) : fat16Lookup true v dir name = fat16Lookup true v dir name' := by
  unfold fat16Lookup
  rw [← findDirEntry_long h h' dir]
  cases hf : v.findDirEntry dir name with
  | none => rfl
  | some r =>
    cases r with
    | none => rfl
    | some p => exact absurd hf (long_not_found h dir p)

theorem lookup_long_fails {name : List UInt8} (h : 12 < name.length) (dir : ℕ) (vn : Vnode) :
    fat16Lookup true v dir name ≠ some (some vn) := by
  intro hl
  obtain ⟨p, hp, -⟩ := lookup_some.mp hl
  exact long_not_found h dir p hp

/-- Cut to the buffer, a name is looked up as it is. -/
theorem lookup_take (dir : ℕ) (name : List UInt8) :
    fat16Lookup true v dir (name.take 63) = fat16Lookup true v dir name := by
  by_cases h : name.length ≤ 63
  · rw [List.take_of_length_le h]
  · have hlen : (name.take 63).length = 63 := by rw [List.length_take]; omega
    exact lookup_long (by omega) (by omega) dir

/-- Every request to the kernel heap is granted. -/
def granted (_ : ℕ) : Bool := true

/-- The last step of a walk. -/
theorem walk_snoc {c : Component} {vn : Vnode} (cs : List Component) : ∀ (k : ℕ)
    (current : Vnode), walk granted v k (cs++[c]) current = some (some vn) ↔
      ∃ dir, walk granted v k cs current = some (some dir) ∧
        fat16Lookup true v dir.inodeNum c = some (some vn) := by
  induction cs with
  | nil =>
    intro k current
    have hone : walk granted v k [c] current = some (some vn) ↔
        fat16Lookup true v current.inodeNum c = some (some vn) := by
      have hgranted : granted k = true := rfl
      rw [walk, hgranted]
      cases fat16Lookup true v current.inodeNum c with
      | none => rfl
      | some r => cases r <;> rfl
    rw [List.nil_append, hone, walk]
    simp
  | cons c' cs ih =>
    intro k current
    rw [List.cons_append]
    by_cases h : ∃ next, fat16Lookup (granted k) v current.inodeNum c' = some (some next)
    · obtain ⟨next, hnext⟩ := h
      rw [walk_step _ hnext, walk_step _ hnext, ih]
    · refine iff_of_false (walk_stop _ h vn) ?_
      rintro ⟨dir, hdir, _⟩
      exact walk_stop _ h dir hdir

theorem resolveLoop_words (fuel : ℕ) : ∀ (k : ℕ) (path : List UInt8) (current : Vnode),
    path.length < fuel → resolveLoop granted v fuel k path current =
      walk granted v k (words slash path) current := by
  induction fuel with
  | zero => exact fun _ _ _ hf => absurd hf (by simp)
  | succ fuel ih =>
    intro k path current hf
    unfold resolveLoop
    rw [← words_dropWhile]
    cases hrest : path.dropWhile (· == slash) with
    | nil => rfl
    | cons c rest =>
      have hc : c ≠ slash := by
        have hhead := List.head_dropWhile_not (· == slash) (l := path) (by simp [hrest])
        simpa [hrest] using hhead
      have hshort := rest_shorter (show path.dropWhile (· == slash) ≠ [] by simp [hrest])
      rw [hrest] at hshort
      have hgranted : granted k = true := rfl
      dsimp only
      rw [if_neg (by simp), words_first hc, walk, hgranted, lookup_take]
      cases hl : fat16Lookup true v current.inodeNum ((c::rest).takeWhile (· != slash)) with
      | none => rfl
      | some r =>
        cases r with
        | none => rfl
        | some next =>
          have hlen : ((c::rest).takeWhile (· != slash)).length ≤ 63 := by
            by_contra hlong
            exact lookup_long_fails (by omega) current.inodeNum next hl
          rw [List.take_of_length_le hlen, drop_takeWhile] at hshort ⊢
          exact ih (k+1) _ next (by omega)

/-- `vfs_resolve_path` looks up the words of the path, one after another. -/
theorem resolve_words (path : List UInt8) :
    vfsResolvePath granted v path = walk granted v 0 (words slash path) rootVnode :=
  resolveLoop_words _ 0 path rootVnode (Nat.lt_succ_self _)

/-- The last lookup is that of the name in the parent. -/
theorem resolve_parent {path : List UInt8} (hne : path ≠ []) (hlast : path.getLast? ≠ some slash)
    (hdir : ∀ i ∈ lastSlash path, i ≤ 255) (vn : Vnode) :
    vfsResolvePath granted v path = some (some vn) ↔
      ∃ dir, vfsResolvePath granted v (splitParentAndName path).1 = some (some dir) ∧
        fat16Lookup true v dir.inodeNum (splitParentAndName path).2 = some (some vn) := by
  obtain ⟨name, _, hwords, hname⟩ := split_words hne hlast hdir
  rw [resolve_words, hwords, walk_snoc, hname, resolve_words]
  simp only [lookup_take]

/-- The front reader looks up the words of the path, and on a path that a call can split, all
calls split alike, and the last lookup is that of the name in the parent. -/
theorem resolve_splits (v : Volume) (path : List UInt8) :
    vfsResolvePath granted v path = walk granted v 0 (words slash path) rootVnode ∧
    (path ≠ [] → path.length ≤ 255 → path.getLast? ≠ some slash → ∃ parent name,
      statSplit path = (parent, name) ∧ unlinkSplit path = some (parent, name) ∧
      writeFileSplit path = (parent, name) ∧ mkdirSplit path = some (parent, name) ∧
      splitParentAndNameMax path 256 64 = (parent, name) ∧
      ∀ vn, vfsResolvePath granted v path = some (some vn) ↔
        ∃ dir, vfsResolvePath granted v parent = some (some dir) ∧
          fat16Lookup true v dir.inodeNum name = some (some vn)) := by
  refine ⟨resolve_words path, fun hne hlen hlast => ?_⟩
  have hroot : path ≠ [slash] := by
    rintro rfl
    exact hlast rfl
  have hunlink : unlinkSplit path = some (splitParentAndName path) := by
    rw [unlinkSplit_eq, if_neg hroot]
  refine ⟨(splitParentAndName path).1, (splitParentAndName path).2, statSplit_eq, hunlink,
    statSplit_eq, hunlink, splitParentAndNameMax_eq, ?_⟩
  exact resolve_parent hne hlast fun i hi => (lastSlash_lt hi).le.trans hlen

theorem resolve_splits_file : ∃ parent name,
    statSplit [slash, 0x41] = (parent, name) ∧ unlinkSplit [slash, 0x41] = some (parent, name) ∧
    writeFileSplit [slash, 0x41] = (parent, name) ∧
    mkdirSplit [slash, 0x41] = some (parent, name) ∧
    splitParentAndNameMax [slash, 0x41] 256 64 = (parent, name) ∧
    ∀ vn, vfsResolvePath granted Fat16Runs.blank [slash, 0x41] = some (some vn) ↔
      ∃ dir, vfsResolvePath granted Fat16Runs.blank parent = some (some dir) ∧
        fat16Lookup true Fat16Runs.blank dir.inodeNum name = some (some vn) :=
  (resolve_splits Fat16Runs.blank [slash, 0x41]).2 (by decide) (by decide) (by decide)

end Walks

end Vlsmc.PathSplitters
