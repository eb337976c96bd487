import Vlsmc.PathSplitters

/-!
# What `vfs_stat` describes

`vfs_stat` resolves its path, throws the vnode away, and looks the last component up again in
the directory part, cut to its buffer. A path that ends in a slash, and the empty path, have no
last component, and the lookup is that of the empty name.
-/

set_option autoImplicit false

namespace Vlsmc.PathStats
open Vlsmc.Fat16Layout Vlsmc.Fat16Names Vlsmc.Fat16Volume Vlsmc.Fat16Files Vlsmc.Vfs
open Vlsmc.VfsDirectories Vlsmc.PathSplitters

/-- `vfs_stat_t`. -/
structure VfsStat where
  size : UInt32
  type : VnodeType
  firstCluster : UInt16
  modTime : UInt16
  modDate : UInt16
  attributes : UInt8
  deriving DecidableEq

def statOf (e : DirEntry) : VfsStat where
  size := e.fileSize
  type := entryType e
  firstCluster := e.firstCluster
  modTime := e.time
  modDate := e.date
  attributes := e.attributes

/-- `fat16_stat`, `some none` for -1. -/
def fat16Stat (v : Volume) (dir : ℕ) (name : List UInt8) : Option (Option VfsStat) :=
  if v.mounted = false then some none
  else do
    match ← v.findDirEntry dir name with
    | none => return none
    | some p => return some (statOf (v.loadEntry p))

/-- `vfs_stat`, which resolves the path and then its directory part; `heap` and `heap'` answer
the requests for memory of the two. -/
def vfsStat (heap heap' : ℕ → Bool) (v : Volume) (path : List UInt8) :
    Option (Option VfsStat) := do
  match ← vfsResolvePath heap v path with
  | none => return none
  | some _ =>
    match ← vfsResolvePath heap' v (statSplit path).1 with
    | none => return none
    | some parent => fat16Stat v parent.inodeNum (statSplit path).2

def Describes (st : VfsStat) (vn : Vnode) : Prop :=
  st.type = vn.type ∧ st.size.toNat = vn.size ∧ st.firstCluster.toNat = vn.inodeNum

/-- `vfs_stat` succeeds exactly when the path resolves, and describes the vnode. -/
def StatAgrees (heap heap' : ℕ → Bool) (v : Volume) (path : List UInt8) : Prop :=
  (∀ vn, vfsResolvePath heap v path = some (some vn) →
    ∃ st, vfsStat heap heap' v path = some (some st) ∧ Describes st vn) ∧
  ∀ st, vfsStat heap heap' v path = some (some st) →
    ∃ vn, vfsResolvePath heap v path = some (some vn)

section Memory

variable {heap : ℕ → Bool} {v : Volume}

/-- A walk succeeds when it would with all memory granted, and its requests are. -/
theorem walk_granted {vn : Vnode} (cs : List Component) : ∀ (k : ℕ) (current : Vnode),
    walk heap v k cs current = some (some vn) ↔
      walk granted v k cs current = some (some vn) ∧ ∀ j < cs.length, heap (k+j) = true := by
  induction cs with
  | nil =>
    intro k current
    rw [walk, walk]
    simp
  | cons c cs ih =>
    intro k current
    by_cases h : ∃ next, fat16Lookup (heap k) v current.inodeNum c = some (some next)
    · obtain ⟨next, hnext⟩ := h
      obtain ⟨p, hp, hk, hvn⟩ := lookup_some.mp hnext
      have hgranted : fat16Lookup (granted k) v current.inodeNum c = some (some next) :=
        lookup_some.mpr ⟨p, hp, rfl, hvn⟩
      rw [walk_step _ hnext, walk_step _ hgranted, ih, List.length_cons]
      apply and_congr_right
      intro _
      constructor
      · rintro hrest (_ | j) hj
        · exact hk
        · rw [show k+(j+1) = k+1+j by omega]
          exact hrest j (by omega)
      · intro hall j hj
        rw [show k+1+j = k+(j+1) by omega]
        exact hall (j+1) (by omega)
    · refine iff_of_false (walk_stop _ h vn) ?_
      rintro ⟨hwalk, hall⟩
      have hk : heap k = true := hall 0 (by simp)
      have hstop : ¬ ∃ next, fat16Lookup (granted k) v current.inodeNum c = some (some next) := by
        rwa [show granted k = heap k from hk.symm]
      exact walk_stop _ hstop vn hwalk

theorem resolve_granted {path : List UInt8} {vn : Vnode} :
    vfsResolvePath heap v path = some (some vn) ↔ vfsResolvePath granted v path = some (some vn) ∧
      ∀ k < (components path).length, heap k = true := by
  rw [resolve_walk, resolve_walk, walk_granted]
  simp only [Nat.zero_add]

end Memory

section Stat

variable {heap heap' : ℕ → Bool} {v : Volume} {path : List UInt8}

/-- `fat16_stat` reads the entry of which `fat16_lookup` makes a vnode. -/
theorem fat16Stat_some {d : ℕ} {name : List UInt8} {st : VfsStat} :
    fat16Stat v d name = some (some st) ↔
      ∃ p, v.findDirEntry d name = some (some p) ∧ st = statOf (v.loadEntry p) := by
  unfold fat16Stat
  split_ifs with hm
  · have hnone : v.findDirEntry d name = some none := by rw [Volume.findDirEntry, if_pos hm]
    rw [hnone]
    simp
  · cases hf : v.findDirEntry d name with
    | none => simp
    | some r => cases r <;> simp [eq_comm]

theorem stat_describes {d : ℕ} {name : List UInt8} {vn : Vnode}
    (h : fat16Lookup true v d name = some (some vn)) :
    ∃ st, fat16Stat v d name = some (some st) ∧ Describes st vn := by
  obtain ⟨p, hp, _, rfl⟩ := lookup_some.mp h
  exact ⟨_, fat16Stat_some.mpr ⟨p, hp, rfl⟩, rfl, rfl, rfl⟩

theorem stat_described {d : ℕ} {name : List UInt8} {st : VfsStat}
    (h : fat16Stat v d name = some (some st)) :
    ∃ vn, fat16Lookup true v d name = some (some vn) ∧ Describes st vn := by
  obtain ⟨p, hp, rfl⟩ := fat16Stat_some.mp h
  exact ⟨_, lookup_some.mpr ⟨p, hp, rfl, rfl⟩, rfl, rfl, rfl⟩

theorem vfsStat_some {st : VfsStat} : vfsStat heap heap' v path = some (some st) ↔
    (∃ vn, vfsResolvePath heap v path = some (some vn)) ∧
      ∃ dir, vfsResolvePath heap' v (splitParentAndName path).1 = some (some dir) ∧
        fat16Stat v dir.inodeNum (splitParentAndName path).2 = some (some st) := by
  unfold vfsStat
  rw [statSplit_eq]
  cases vfsResolvePath heap v path with
  | none => simp
  | some r =>
    cases r with
    | none => simp
    | some vn =>
      cases vfsResolvePath heap' v (splitParentAndName path).1 with
      | none => simp
      | some r => cases r <;> simp

/-- The path has a last component, and its directory part fits the buffer. -/
def Splits (path : List UInt8) : Prop :=
  path ≠ [] ∧ path.getLast? ≠ some slash ∧ ∀ i ∈ lastSlash path, i ≤ 255

instance (path : List UInt8) : Decidable (Splits path) := inferInstanceAs (Decidable (_ ∧ _))

/-- The cut directory part has an entry with the cut name, and it is like the vnode. -/
def CutAgrees (heap' : ℕ → Bool) (v : Volume) (path : List UInt8) (vn : Vnode) : Prop :=
  ∃ dir other, vfsResolvePath heap' v (splitParentAndName path).1 = some (some dir) ∧
    fat16Lookup true v dir.inodeNum (splitParentAndName path).2 = some (some other) ∧
    other.type = vn.type ∧ other.size = vn.size ∧ other.inodeNum = vn.inodeNum

/-- Without the second walk's memory, or without a last component, `vfs_stat` fails, and where
the directory part is cut, it describes what happens to be there. -/
theorem stat_agrees_iff (heap heap' : ℕ → Bool) (v : Volume) (path : List UInt8) :
    StatAgrees heap heap' v path ↔ ∀ vn, vfsResolvePath heap v path = some (some vn) →
      (Splits path ∧ ∀ k < (components (splitParentAndName path).1).length, heap' k = true) ∨
      (¬ Splits path ∧ CutAgrees heap' v path vn) := by
  constructor
  · intro h vn hvn
    obtain ⟨st, hst, hdesc⟩ := h.1 vn hvn
    obtain ⟨_, dir, hdir, hstat⟩ := vfsStat_some.mp hst
    by_cases hs : Splits path
    · exact Or.inl ⟨hs, (resolve_granted.mp hdir).2⟩
    · obtain ⟨other, hother, ht, hsize, hc⟩ := stat_described hstat
      exact Or.inr ⟨hs, dir, other, hdir, hother, ht.symm.trans hdesc.1,
        hsize.symm.trans hdesc.2.1, hc.symm.trans hdesc.2.2⟩
  · intro h
    refine ⟨fun vn hvn => ?_, fun st hst => (vfsStat_some.mp hst).1⟩
    rcases h vn hvn with ⟨hs, hheap⟩ | ⟨_, dir, other, hdir, hother, ht, hsize, hc⟩
    · have hall := (resolve_granted.mp hvn).1
      obtain ⟨dir, hdir, hlook⟩ := (resolve_parent hs.1 hs.2.1 hs.2.2 vn).mp hall
      obtain ⟨st, hst, hdesc⟩ := stat_describes hlook
      exact ⟨st, vfsStat_some.mpr ⟨⟨vn, hvn⟩, dir, resolve_granted.mpr ⟨hdir, hheap⟩, hst⟩, hdesc⟩
    · obtain ⟨st, hst, hdesc⟩ := stat_describes hother
      exact ⟨st, vfsStat_some.mpr ⟨⟨vn, hvn⟩, dir, hdir, hst⟩, hdesc.1.trans ht,
        hdesc.2.1.trans hsize, hdesc.2.2.trans hc⟩

/-- The root resolves and is not described. -/
theorem root_undescribed : vfsResolvePath granted Fat16Runs.blank [slash] = some (some rootVnode) ∧
    vfsStat granted granted Fat16Runs.blank [slash] = some none ∧
    ¬ StatAgrees granted granted Fat16Runs.blank [slash] := by
  have hroot : vfsResolvePath granted Fat16Runs.blank [slash] = some (some rootVnode) := by
    decide +kernel
  have hstat : vfsStat granted granted Fat16Runs.blank [slash] = some none := by decide +kernel
  refine ⟨hroot, hstat, fun h => ?_⟩
  obtain ⟨st, hst, _⟩ := h.1 _ hroot
  rw [hstat] at hst
  cases hst

end Stat

end Vlsmc.PathStats
