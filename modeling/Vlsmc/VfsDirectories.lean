import Vlsmc.Vfs

/-!
# What the calls with paths look into

Every vnode of the driver has the operations of a directory, so the check of `vfs_resolve_path`
for `lookup` never fails. Below, the vnodes on which each call runs an operation of directories,
call by call, and the paths for which all of them are directories: those that name a directory
with every component but the last.
-/

set_option autoImplicit false

namespace Vlsmc.VfsDirectories
open Vlsmc.Fat16Layout Vlsmc.Fat16Names Vlsmc.Fat16Volume Vlsmc.Fat16Files Vlsmc.Vfs

abbrev Component := List UInt8

inductive DirOp
  | lookup
  | create
  | mkdir
  | unlink
  | rename
  | readdir
  | stat
  deriving DecidableEq

/-- The vnodes on which the loop of `vfs_resolve_path` calls `lookup`. -/
def loopLookups (heap : ℕ → Bool) (v : Volume) : ℕ → ℕ → List UInt8 → Vnode → List Vnode
  | 0, _, _, _ => []
  | fuel+1, k, path, current =>
    let rest := path.dropWhile (· == slash)
    if rest = [] then []
    else
      let component := (rest.takeWhile (· != slash)).take 63
      current::match fat16Lookup (heap k) v current.inodeNum component with
        | some (some next) => loopLookups heap v fuel (k+1) (rest.drop component.length) next
        | _ => []

def resolveLookups (heap : ℕ → Bool) (v : Volume) (path : List UInt8) : List (DirOp × Vnode) :=
  (loopLookups heap v (path.length+1) 0 path rootVnode).map (DirOp.lookup, ·)

/-- What follows when the path resolves. -/
def onResolved (heap : ℕ → Bool) (v : Volume) (path : List UInt8)
    (ops : Vnode → List (DirOp × Vnode)) : List (DirOp × Vnode) :=
  resolveLookups heap v path++match vfsResolvePath heap v path with
    | some (some vn) => ops vn
    | _ => []

/-- The calls that take a path. The second path of `rename` has its own heap answers. -/
inductive PathCall
  | open (path : List UInt8) (creat : Bool)
  | readdir (path : List UInt8) (maxEntries : ℕ)
  | stat (path : List UInt8) (heap' : ℕ → Bool)
  | unlink (path : List UInt8)
  | writeFile (path : List UInt8) (lookupOk : Bool)
  | mkdir (path : List UInt8)
  | rename (oldpath newpath : List UInt8) (heap' : ℕ → Bool)

/-- The operations of directories that a call runs, in order, and on what. -/
def PathCall.operations (heap : ℕ → Bool) (v : Volume) : PathCall → List (DirOp × Vnode)
  | .open path creat =>
    resolveLookups heap v path++
      if vfsResolvePath heap v path = some none ∧ creat = true then [(.create, rootVnode)] else []
  | .readdir path maxEntries =>
    if maxEntries = 0 then [] else onResolved heap v path fun dir => [(.readdir, dir)]
  | .stat path heap' => onResolved heap v path fun _ =>
      onResolved heap' v (splitParentAndName path).1 fun parent => [(.stat, parent)]
  | .unlink path =>
    if path = [slash] then []
    else onResolved heap v (splitParentAndName path).1 fun parent => [(.unlink, parent)]
  | .writeFile path lookupOk => onResolved heap v (splitParentAndName path).1 fun parent =>
      (.lookup, parent)::
        match fat16Lookup lookupOk v parent.inodeNum (splitParentAndName path).2 with
        | some none => [(.create, parent)]
        | _ => []
  | .mkdir path =>
    if path = [slash] then []
    else onResolved heap v (splitParentAndName path).1 fun parent => [(.mkdir, parent)]
  | .rename oldpath newpath heap' =>
    if (splitParentAndName oldpath).2 = [] ∨ (splitParentAndName newpath).2 = [] then []
    else onResolved heap v (splitParentAndName oldpath).1 fun oldParent =>
      onResolved heap' v (splitParentAndName newpath).1 fun newParent =>
        [(.rename, oldParent), (.rename, newParent)]

section Components

def componentsLoop : ℕ → List UInt8 → List Component
  | 0, _ => []
  | fuel+1, path =>
    let rest := path.dropWhile (· == slash)
    if rest = [] then []
    else
      let component := (rest.takeWhile (· != slash)).take 63
      component::componentsLoop fuel (rest.drop component.length)

/-- The pieces that `extract_path_component` yields. -/
def components (path : List UInt8) : List Component := componentsLoop (path.length+1) path

/-- The walk along the pieces. -/
def walk (heap : ℕ → Bool) (v : Volume) : ℕ → List Component → Vnode → Option (Option Vnode)
  | _, [], current => some (some current)
  | k, c::cs, current =>
    match fat16Lookup (heap k) v current.inodeNum c with
    | none => none
    | some none => some none
    | some (some next) => walk heap v (k+1) cs next

def lookedUp (heap : ℕ → Bool) (v : Volume) : ℕ → List Component → Vnode → List Vnode
  | _, [], _ => []
  | k, c::cs, current => current::match fat16Lookup (heap k) v current.inodeNum c with
    | some (some next) => lookedUp heap v (k+1) cs next
    | _ => []

/-- The remainder of a path gets shorter by the component. -/
theorem rest_shorter {path : List UInt8} (h : path.dropWhile (· == slash) ≠ []) :
    ((path.dropWhile (· == slash)).drop
      (((path.dropWhile (· == slash)).takeWhile (· != slash)).take 63).length).length <
        path.length := by
  obtain ⟨c, rest, hr⟩ := List.exists_cons_of_ne_nil h
  have hc : (c == slash) = false := by
    have hhead := List.head_dropWhile_not (· == slash) h
    simpa only [hr, List.head_cons] using hhead
  have hle : (path.dropWhile (· == slash)).length ≤ path.length :=
    (List.dropWhile_sublist _).length_le
  rw [hr] at hle ⊢
  rw [List.takeWhile_cons_of_pos (by simp [bne, hc]), List.take_succ_cons, List.length_cons,
    List.drop_succ_cons, List.length_drop]
  rw [List.length_cons] at hle
  omega

theorem componentsLoop_fuel (n : ℕ) : ∀ (path : List UInt8) (fuel fuel' : ℕ), path.length ≤ n →
    path.length < fuel → path.length < fuel' →
    componentsLoop fuel path = componentsLoop fuel' path := by
  induction n with
  | zero =>
    intro path fuel fuel' hn hf hf'
    obtain rfl := List.length_eq_zero_iff.mp (Nat.le_zero.mp hn)
    cases fuel with
    | zero => exact absurd hf (by simp)
    | succ fuel =>
      cases fuel' with
      | zero => exact absurd hf' (by simp)
      | succ fuel' => rfl
  | succ n ih =>
    intro path fuel fuel' hn hf hf'
    obtain ⟨fuel, rfl⟩ := Nat.exists_eq_succ_of_ne_zero (Nat.ne_of_gt (Nat.zero_lt_of_lt hf))
    obtain ⟨fuel', rfl⟩ := Nat.exists_eq_succ_of_ne_zero (Nat.ne_of_gt (Nat.zero_lt_of_lt hf'))
    unfold componentsLoop
    dsimp only
    split_ifs with h
    · rfl
    · have hlt := rest_shorter h
      rw [ih _ fuel fuel' (by omega) (by omega) (by omega)]

theorem componentsLoop_slashes {path path' : List UInt8}
    (h : path.dropWhile (· == slash) = path'.dropWhile (· == slash)) (fuel : ℕ) :
    componentsLoop fuel path = componentsLoop fuel path' := by
  cases fuel with
  | zero => rfl
  | succ fuel =>
    unfold componentsLoop
    rw [h]

theorem takeWhile_before (r c : List UInt8) :
    (r++slash::c).takeWhile (· != slash) = r.takeWhile (· != slash) := by
  induction r with
  | nil => exact List.takeWhile_cons_of_neg (by simp)
  | cons b r ih =>
    rw [List.cons_append, List.takeWhile_cons, List.takeWhile_cons, ih]

/-- A path in two parts, the second of them behind a slash. -/
theorem componentsLoop_append (c : List UInt8) (fuel' : ℕ) : ∀ (p : List UInt8) (fuel : ℕ),
    (p++slash::c).length < fuel → p.length < fuel' →
    componentsLoop fuel (p++slash::c) = componentsLoop fuel' p++components c := by
  induction fuel' with
  | zero => exact fun _ _ _ hf' => absurd hf' (by simp)
  | succ fuel' ih =>
    intro p fuel hf hf'
    have hdrop : (p++slash::c).dropWhile (· == slash) =
        if (p.dropWhile (· == slash)).isEmpty then (slash::c).dropWhile (· == slash)
        else p.dropWhile (· == slash)++slash::c := List.dropWhile_append
    by_cases h : p.dropWhile (· == slash) = []
    · rw [h, List.isEmpty_nil, if_pos rfl] at hdrop
      have hp : componentsLoop (fuel'+1) p = [] := by
        unfold componentsLoop
        dsimp only
        rw [if_pos h]
      have hsame : componentsLoop fuel (p++slash::c) = componentsLoop fuel c :=
        componentsLoop_slashes (hdrop.trans (List.dropWhile_cons_of_pos (by simp))) fuel
      rw [hp, List.nil_append, hsame]
      have hlen : c.length < fuel := by
        rw [List.length_append, List.length_cons] at hf
        omega
      exact componentsLoop_fuel c.length c _ _ le_rfl hlen (Nat.lt_succ_self _)
    · have hempty : (p.dropWhile (· == slash)).isEmpty = false := by
        rwa [List.isEmpty_eq_false_iff]
      rw [hempty, if_neg (by decide)] at hdrop
      have hlt := rest_shorter h
      obtain ⟨fuel, rfl⟩ := Nat.exists_eq_succ_of_ne_zero (Nat.ne_of_gt (Nat.zero_lt_of_lt hf))
      unfold componentsLoop
      dsimp only
      rw [hdrop, if_neg (by simp), if_neg h, takeWhile_before, List.cons_append]
      have hlen : (((p.dropWhile (· == slash)).takeWhile (· != slash)).take 63).length ≤
          (p.dropWhile (· == slash)).length :=
        (List.length_take_le' _ _).trans (List.takeWhile_sublist _).length_le
      rw [List.drop_append_of_le_length hlen]
      rw [List.length_append] at hf
      rw [ih _ fuel (by rw [List.length_append]; omega) (by omega)]

theorem components_append (p c : List UInt8) :
    components (p++slash::c) = components p++components c :=
  componentsLoop_append c _ p _ (Nat.lt_succ_self _) (Nat.lt_succ_self _)

theorem resolveLoop_walk (heap : ℕ → Bool) (v : Volume) (fuel : ℕ) : ∀ (k : ℕ) (path : List UInt8)
    (current : Vnode), path.length < fuel →
    resolveLoop heap v fuel k path current = walk heap v k (componentsLoop fuel path) current := by
  induction fuel with
  | zero => exact fun _ _ _ hf => absurd hf (by simp)
  | succ fuel ih =>
    intro k path current hf
    unfold resolveLoop componentsLoop
    dsimp only
    split_ifs with h
    · rfl
    · have hlt := rest_shorter h
      rw [walk]
      cases fat16Lookup (heap k) v current.inodeNum
          (((path.dropWhile (· == slash)).takeWhile (· != slash)).take 63) with
      | none => rfl
      | some r =>
        cases r with
        | none => rfl
        | some next => exact ih (k+1) _ next (by omega)

theorem loopLookups_eq (heap : ℕ → Bool) (v : Volume) (fuel : ℕ) : ∀ (k : ℕ) (path : List UInt8)
    (current : Vnode),
    loopLookups heap v fuel k path current = lookedUp heap v k (componentsLoop fuel path) current := by
  induction fuel with
  | zero => exact fun _ _ _ => rfl
  | succ fuel ih =>
    intro k path current
    unfold loopLookups componentsLoop
    dsimp only
    split_ifs with h
    · rfl
    · rw [lookedUp]
      congr 1
      cases fat16Lookup (heap k) v current.inodeNum
          (((path.dropWhile (· == slash)).takeWhile (· != slash)).take 63) with
      | none => rfl
      | some r =>
        cases r with
        | none => rfl
        | some next => exact ih (k+1) _ next

theorem resolve_walk (heap : ℕ → Bool) (v : Volume) (path : List UInt8) :
    vfsResolvePath heap v path = walk heap v 0 (components path) rootVnode :=
  resolveLoop_walk heap v _ 0 path rootVnode (Nat.lt_succ_self _)

theorem resolveLookups_eq (heap : ℕ → Bool) (v : Volume) (path : List UInt8) :
    resolveLookups heap v path =
      (lookedUp heap v 0 (components path) rootVnode).map (DirOp.lookup, ·) := by
  rw [resolveLookups, loopLookups_eq]
  rfl

end Components

section Directories

variable {heap heap' : ℕ → Bool} {v : Volume}

/-- A component before the last names a file: the driver finds an entry for it that is not one
of a directory. -/
def ThroughFile (heap : ℕ → Bool) (v : Volume) : ℕ → List Component → ℕ → Prop
  | k, c::c'::cs, dir => ∃ p, v.findDirEntry dir c = some (some p) ∧ heap k = true ∧
    (¬(v.loadEntry p).isDirectory ∨ ThroughFile heap v (k+1) (c'::cs) (v.loadEntry p).cluster)
  | _, _, _ => False

/-- There is an entry for every component, and memory for its vnode. -/
def Named (heap : ℕ → Bool) (v : Volume) : ℕ → List Component → ℕ → Prop
  | _, [], _ => True
  | k, c::cs, dir => ∃ p, v.findDirEntry dir c = some (some p) ∧ heap k = true ∧
    Named heap v (k+1) cs (v.loadEntry p).cluster

theorem lookup_some {ok : Bool} {dir : ℕ} {name : Component} {next : Vnode} :
    fat16Lookup ok v dir name = some (some next) ↔ ∃ p, v.findDirEntry dir name = some (some p) ∧
      ok = true ∧ next = ⟨entryType (v.loadEntry p), (v.loadEntry p).fileSize.toNat,
        (v.loadEntry p).cluster, some (name.take 12, dir)⟩ := by
  unfold fat16Lookup
  cases hf : v.findDirEntry dir name with
  | none => simp
  | some r =>
    cases r with
    | none => simp
    | some p => cases ok <;> simp [eq_comm]

section Step

variable {k : ℕ} {c : Component} {current next : Vnode}

theorem lookedUp_step (cs : List Component)
    (h : fat16Lookup (heap k) v current.inodeNum c = some (some next)) :
    lookedUp heap v k (c::cs) current = current::lookedUp heap v (k+1) cs next := by
  rw [lookedUp, h]

theorem walk_step (cs : List Component)
    (h : fat16Lookup (heap k) v current.inodeNum c = some (some next)) :
    walk heap v k (c::cs) current = walk heap v (k+1) cs next := by
  rw [walk, h]

theorem lookedUp_stop (cs : List Component)
    (h : ¬∃ next, fat16Lookup (heap k) v current.inodeNum c = some (some next)) :
    lookedUp heap v k (c::cs) current = [current] := by
  rw [lookedUp]
  cases hl : fat16Lookup (heap k) v current.inodeNum c with
  | none => rfl
  | some r =>
    cases r with
    | none => rfl
    | some next => exact absurd ⟨next, hl⟩ h

theorem walk_stop (cs : List Component)
    (h : ¬∃ next, fat16Lookup (heap k) v current.inodeNum c = some (some next)) (vn : Vnode) :
    walk heap v k (c::cs) current ≠ some (some vn) := by
  rw [walk]
  cases hl : fat16Lookup (heap k) v current.inodeNum c with
  | none => simp
  | some r =>
    cases r with
    | none => simp
    | some next => exact absurd ⟨next, hl⟩ h

theorem mem_lookedUp (c : Component) (cs : List Component) (current : Vnode) :
    current ∈ lookedUp heap v k (c::cs) current := by
  rw [lookedUp]
  exact List.mem_cons_self

end Step

theorem walk_named (cs : List Component) : ∀ (k : ℕ) (current : Vnode),
    (∃ vn, walk heap v k cs current = some (some vn)) ↔ Named heap v k cs current.inodeNum := by
  induction cs with
  | nil => exact fun k current => ⟨fun _ => trivial, fun _ => ⟨current, rfl⟩⟩
  | cons c cs ih =>
    intro k current
    rw [Named]
    constructor
    · rintro ⟨vn, hvn⟩
      by_cases h : ∃ next, fat16Lookup (heap k) v current.inodeNum c = some (some next)
      · obtain ⟨next, hnext⟩ := h
        obtain ⟨p, hp, hk, rfl⟩ := lookup_some.mp hnext
        rw [walk_step cs hnext] at hvn
        exact ⟨p, hp, hk, (ih (k+1) _).mp ⟨vn, hvn⟩⟩
      · exact absurd hvn (walk_stop cs h vn)
    · rintro ⟨p, hp, hk, hrest⟩
      rw [walk_step cs (lookup_some.mpr ⟨p, hp, hk, rfl⟩)]
      exact (ih (k+1) _).mpr hrest

theorem lookedUp_snoc (c : Component) (cs : List Component) : ∀ (k : ℕ) (current x : Vnode),
    x ∈ lookedUp heap v k (cs++[c]) current ↔ x ∈ lookedUp heap v k cs current ∨
      walk heap v k cs current = some (some x) := by
  induction cs with
  | nil =>
    intro k current x
    have hone : lookedUp heap v k [c] current = [current] := by
      by_cases h : ∃ next, fat16Lookup (heap k) v current.inodeNum c = some (some next)
      · obtain ⟨next, hnext⟩ := h
        rw [lookedUp_step [] hnext, lookedUp]
      · exact lookedUp_stop [] h
    rw [List.nil_append, hone, lookedUp, walk]
    simp [eq_comm]
  | cons c' cs ih =>
    intro k current x
    rw [List.cons_append]
    by_cases h : ∃ next, fat16Lookup (heap k) v current.inodeNum c' = some (some next)
    · obtain ⟨next, hnext⟩ := h
      rw [lookedUp_step _ hnext, lookedUp_step _ hnext, walk_step _ hnext, List.mem_cons,
        List.mem_cons, ih, or_assoc]
    · rw [lookedUp_stop _ h, lookedUp_stop _ h]
      exact ⟨Or.inl, fun hx => hx.resolve_right (walk_stop cs h x)⟩

/-- From a directory on, all vnodes are directories unless a file is in the way. -/
theorem lookedUp_direct (cs : List Component) : ∀ (k : ℕ) (current : Vnode),
    current.type = .directory → ((∀ x ∈ lookedUp heap v k cs current, x.type = .directory) ↔
      ¬ThroughFile heap v k cs current.inodeNum) := by
  induction cs with
  | nil => exact fun k current _ => ⟨fun _ h => h, fun _ x hx => absurd hx (by simp [lookedUp])⟩
  | cons c cs ih =>
    intro k current hd
    by_cases h : ∃ next, fat16Lookup (heap k) v current.inodeNum c = some (some next)
    · obtain ⟨next, hnext⟩ := h
      obtain ⟨p, hp, hk, hvn⟩ := lookup_some.mp hnext
      rw [lookedUp_step cs hnext, List.forall_mem_cons, and_iff_right hd]
      cases cs with
      | nil => exact ⟨fun _ hc => hc, fun _ x hx => absurd hx (by simp [lookedUp])⟩
      | cons c' cs =>
        have hthrough : ThroughFile heap v k (c::c'::cs) current.inodeNum ↔
            ¬(v.loadEntry p).isDirectory ∨
              ThroughFile heap v (k+1) (c'::cs) (v.loadEntry p).cluster := by
          rw [ThroughFile]
          constructor
          · rintro ⟨q, hq, -, hrest⟩
            obtain rfl : p = q := Option.some.inj (Option.some.inj (hp.symm.trans hq))
            exact hrest
          · exact fun hrest => ⟨p, hp, hk, hrest⟩
        have hinode : next.inodeNum = (v.loadEntry p).cluster := by rw [hvn]
        rw [hthrough, not_or, not_not]
        by_cases hdir : (v.loadEntry p).isDirectory
        · have hnd : next.type = .directory := by
            rw [hvn]
            exact if_pos hdir
          rw [ih (k+1) next hnd, hinode, and_iff_right hdir]
        · refine ⟨fun hall => absurd (hall next (mem_lookedUp _ _ _)) ?_, fun hc => absurd hc.1 hdir⟩
          have hnd : next.type = .file := by
            rw [hvn]
            exact if_neg hdir
          rw [hnd]
          decide
    · rw [lookedUp_stop cs h]
      refine iff_of_true (fun x hx => by rwa [List.mem_singleton.mp hx]) fun hc => ?_
      cases cs with
      | nil => exact hc
      | cons c' cs =>
        obtain ⟨p, hp, hk, -⟩ := hc
        exact h ⟨_, lookup_some.mpr ⟨p, hp, hk, rfl⟩⟩

end Directories

section Calls

variable {heap : ℕ → Bool} {v : Volume}

def OnDirectories (ops : List (DirOp × Vnode)) : Prop := ∀ x ∈ ops, x.2.type = .directory

/-- No component before the last names a file. -/
def Direct (heap : ℕ → Bool) (v : Volume) (path : List Component) : Prop :=
  ¬ThroughFile heap v 0 path 0

/-- The paths that a call walks, and how far: every component before the last one names a
directory, and so does the parent where one is needed. -/
def PathCall.Direct (heap : ℕ → Bool) (v : Volume) : PathCall → Prop
  | .open path _ => VfsDirectories.Direct heap v (components path)
  | .readdir path maxEntries =>
    maxEntries ≠ 0 → VfsDirectories.Direct heap v (components path++[[]])
  | .stat path heap' => VfsDirectories.Direct heap v (components path) ∧
    (Named heap v 0 (components path) 0 → VfsDirectories.Direct heap' v
      (components (splitParentAndName path).1++[(splitParentAndName path).2]))
  | .unlink path | .mkdir path => path ≠ [slash] → VfsDirectories.Direct heap v
    (components (splitParentAndName path).1++[(splitParentAndName path).2])
  | .writeFile path _ => VfsDirectories.Direct heap v
    (components (splitParentAndName path).1++[(splitParentAndName path).2])
  | .rename oldpath newpath heap' =>
    (splitParentAndName oldpath).2 ≠ [] → (splitParentAndName newpath).2 ≠ [] →
    VfsDirectories.Direct heap v (components (splitParentAndName oldpath).1) ∧
    (Named heap v 0 (components (splitParentAndName oldpath).1) 0 →
      VfsDirectories.Direct heap' v (components (splitParentAndName newpath).1) ∧
      (Named heap' v 0 (components (splitParentAndName newpath).1) 0 →
        VfsDirectories.Direct heap v
          (components (splitParentAndName oldpath).1++[(splitParentAndName oldpath).2]) ∧
        VfsDirectories.Direct heap' v
          (components (splitParentAndName newpath).1++[(splitParentAndName newpath).2])))

theorem onDirectories_append (ops ops' : List (DirOp × Vnode)) :
    OnDirectories (ops++ops') ↔ OnDirectories ops ∧ OnDirectories ops' :=
  List.forall_mem_append

theorem lookups_direct (path : List UInt8) :
    OnDirectories (resolveLookups heap v path) ↔ Direct heap v (components path) := by
  rw [resolveLookups_eq, OnDirectories, List.forall_mem_map]
  exact lookedUp_direct (components path) 0 rootVnode rfl

/-- The lookups, and then the vnode that the path leads to. -/
theorem resolved_direct (path : List UInt8) (name : Component) :
    Direct heap v (components path++[name]) ↔ Direct heap v (components path) ∧
      ∀ vn, vfsResolvePath heap v path = some (some vn) → vn.type = .directory := by
  have hroot : ∀ cs, (∀ x ∈ lookedUp heap v 0 cs rootVnode, x.type = .directory) ↔
      Direct heap v cs := fun cs => lookedUp_direct cs 0 rootVnode rfl
  rw [resolve_walk, ← hroot, ← hroot]
  simp only [lookedUp_snoc]
  exact ⟨fun h => ⟨fun x hx => h x (Or.inl hx), fun x hx => h x (Or.inr hx)⟩,
    fun h x hx => hx.elim (h.1 x) (h.2 x)⟩

theorem onResolved_direct (path : List UInt8) (ops : Vnode → List (DirOp × Vnode)) :
    OnDirectories (onResolved heap v path ops) ↔ Direct heap v (components path) ∧
      ∀ vn, vfsResolvePath heap v path = some (some vn) → OnDirectories (ops vn) := by
  rw [onResolved, onDirectories_append, lookups_direct]
  refine and_congr_right fun _ => ?_
  cases vfsResolvePath heap v path with
  | none => simp [OnDirectories]
  | some r => cases r <;> simp [OnDirectories]

/-- Operations on the vnode that the path leads to. -/
theorem onParent_direct (path : List UInt8) (name : Component)
    (ops : Vnode → List (DirOp × Vnode))
    (hops : ∀ vn, OnDirectories (ops vn) ↔ vn.type = .directory) :
    OnDirectories (onResolved heap v path ops) ↔ Direct heap v (components path++[name]) := by
  rw [onResolved_direct, resolved_direct]
  simp only [hops]

theorem named_resolves (path : List UInt8) : Named heap v 0 (components path) 0 ↔
    ∃ vn, vfsResolvePath heap v path = some (some vn) := by
  rw [resolve_walk]
  exact (walk_named (components path) 0 rootVnode).symm

theorem one_direct (op : DirOp) (vn : Vnode) :
    OnDirectories [(op, vn)] ↔ vn.type = .directory := by simp [OnDirectories]

/-- `rename` runs on both parents, once both paths have been walked. -/
theorem rename_direct {heap' : ℕ → Bool} (old new : List UInt8) (oldName newName : Component) :
    OnDirectories (onResolved heap v old fun oldParent => onResolved heap' v new fun newParent =>
      [(.rename, oldParent), (.rename, newParent)]) ↔
    Direct heap v (components old) ∧ (Named heap v 0 (components old) 0 →
      Direct heap' v (components new) ∧ (Named heap' v 0 (components new) 0 →
        Direct heap v (components old++[oldName]) ∧ Direct heap' v (components new++[newName]))) := by
  rw [onResolved_direct, named_resolves, named_resolves]
  refine and_congr_right fun hold => ?_
  simp only [onResolved_direct, resolved_direct, hold, true_and]
  constructor
  · rintro h ⟨vn, hvn⟩
    refine ⟨(h vn hvn).1, fun ⟨vn', hvn'⟩ => ⟨fun x hx => ?_, (h vn hvn).1, fun x hx => ?_⟩⟩
    · exact (h x hx).2 vn' hvn' (.rename, x) List.mem_cons_self
    · exact (h vn hvn).2 x hx (.rename, x) (List.mem_cons_of_mem _ List.mem_cons_self)
  · intro h vn hvn
    obtain ⟨hnew, hboth⟩ := h ⟨vn, hvn⟩
    refine ⟨hnew, fun vn' hvn' => ?_⟩
    obtain ⟨holdDir, -, hnewDir⟩ := hboth ⟨vn', hvn'⟩
    intro x hx
    rcases List.mem_cons.mp hx with rfl | hx
    · exact holdDir vn hvn
    · obtain rfl := List.mem_singleton.mp hx
      exact hnewDir vn' hvn'

theorem operations_direct (c : PathCall) :
    OnDirectories (c.operations heap v) ↔ c.Direct heap v := by
  cases c with
  | «open» path creat =>
    rw [PathCall.operations, onDirectories_append, lookups_direct]
    refine and_iff_left ?_
    split_ifs
    · exact (one_direct .create rootVnode).mpr rfl
    · exact fun x hx => absurd hx (by simp)
  | readdir path maxEntries =>
    rw [PathCall.operations, PathCall.Direct]
    split_ifs with h
    · exact iff_of_true (fun x hx => absurd hx (by simp)) fun hc => absurd h hc
    · rw [onParent_direct path [] _ (one_direct .readdir)]
      exact ⟨fun hd _ => hd, fun hd => hd h⟩
  | stat path heap' =>
    rw [PathCall.operations, PathCall.Direct, onResolved_direct]
    refine and_congr_right fun _ => ?_
    rw [onParent_direct _ _ _ (one_direct .stat)]
    rw [named_resolves]
    exact ⟨fun h ⟨vn, hvn⟩ => h vn hvn, fun h vn hvn => h ⟨vn, hvn⟩⟩
  | unlink path =>
    rw [PathCall.operations, PathCall.Direct]
    split_ifs with h
    · exact iff_of_true (fun x hx => absurd hx (by simp)) fun hc => absurd h hc
    · rw [onParent_direct _ _ _ (one_direct .unlink)]
      exact ⟨fun hd _ => hd, fun hd => hd h⟩
  | writeFile path lookupOk =>
    refine onParent_direct _ _ _ fun vn => ?_
    cases fat16Lookup lookupOk v vn.inodeNum (splitParentAndName path).2 with
    | none => simp [OnDirectories]
    | some r => cases r <;> simp [OnDirectories]
  | mkdir path =>
    rw [PathCall.operations, PathCall.Direct]
    split_ifs with h
    · exact iff_of_true (fun x hx => absurd hx (by simp)) fun hc => absurd h hc
    · rw [onParent_direct _ _ _ (one_direct .mkdir)]
      exact ⟨fun hd _ => hd, fun hd => hd h⟩
  | rename oldpath newpath heap' =>
    rw [PathCall.operations, PathCall.Direct]
    split_ifs with h
    · exact iff_of_true (fun x hx => absurd hx (by simp)) fun ho hn => (h.elim ho hn).elim
    · rw [not_or] at h
      simp only [ne_eq, h, not_false_eq_true, forall_const]
      exact rename_direct _ _ _ _

/-- What resolves behind a path was found in a directory. -/
def ThroughDirectories (heap : ℕ → Bool) (v : Volume) (path : List UInt8) : Prop :=
  ∀ p c, path = p++slash::c → components c ≠ [] →
    (∃ vn, vfsResolvePath heap v path = some (some vn)) →
    ∃ d, vfsResolvePath heap v p = some (some d) ∧ d.type = .directory

theorem walk_append (cs cs' : List Component) (hcs : cs' ≠ []) : ∀ (k : ℕ) (current vn : Vnode),
    walk heap v k (cs++cs') current = some (some vn) →
    ∃ d, walk heap v k cs current = some (some d) ∧ d ∈ lookedUp heap v k (cs++cs') current := by
  induction cs with
  | nil =>
    intro k current vn _
    obtain ⟨c, rest, rfl⟩ := List.exists_cons_of_ne_nil hcs
    exact ⟨current, rfl, mem_lookedUp c rest current⟩
  | cons c cs ih =>
    intro k current vn hvn
    by_cases h : ∃ next, fat16Lookup (heap k) v current.inodeNum c = some (some next)
    · obtain ⟨next, hnext⟩ := h
      rw [List.cons_append] at hvn ⊢
      rw [walk_step _ hnext] at hvn
      obtain ⟨d, hd, hmem⟩ := ih (k+1) next vn hvn
      rw [walk_step _ hnext, lookedUp_step _ hnext]
      exact ⟨d, hd, List.mem_cons_of_mem _ hmem⟩
    · exact absurd hvn (walk_stop _ h vn)

theorem throughDirectories (path : List UInt8) (h : Direct heap v (components path)) :
    ThroughDirectories heap v path := by
  rintro p c rfl hc ⟨vn, hvn⟩
  rw [resolve_walk, components_append] at hvn
  obtain ⟨d, hd, hmem⟩ := walk_append (components p) (components c) hc 0 rootVnode vn hvn
  rw [components_append] at h
  exact ⟨d, (resolve_walk heap v p).trans hd, (lookedUp_direct _ 0 rootVnode rfl).mpr h d hmem⟩

/-- Paths are walked through directories, and the calls run their operations of directories on
directories, exactly when no file stands where a directory should. -/
theorem directories_only (heap : ℕ → Bool) (v : Volume) :
    (∀ path, OnDirectories (resolveLookups heap v path) ∧ ThroughDirectories heap v path ↔
      Direct heap v (components path)) ∧
    ∀ c : PathCall, OnDirectories (c.operations heap v) ↔ c.Direct heap v :=
  ⟨fun path => ⟨fun h => (lookups_direct path).mp h.1,
    fun h => ⟨(lookups_direct path).mpr h, throughDirectories path h⟩⟩, operations_direct⟩

end Calls

section Example

/-- The file `A` in the root directory, empty. -/
def emptyEntry : DirEntry where
  name := padded 8 [0x41]
  ext := padded 3 []
  attributes := attrArchive
  reserved := fun _ => 0
  time := 0
  date := 0
  firstCluster := 0
  fileSize := 0

def emptyFile : Volume := Fat16Runs.blank.updateEntry (2, 0) fun _ => emptyEntry

/-- The empty file is taken for the root directory: `/A/A` is found in it. -/
theorem file_walked_through : ∃ vn d,
    vfsResolvePath (fun _ => true) emptyFile [slash, 0x41, slash, 0x41] = some (some vn) ∧
    vfsResolvePath (fun _ => true) emptyFile [slash, 0x41] = some (some d) ∧
    d.type = .file ∧ d.inodeNum = 0 ∧
    (DirOp.lookup, d) ∈ resolveLookups (fun _ => true) emptyFile [slash, 0x41, slash, 0x41] := by
  refine ⟨⟨.file, 0, 0, some ([0x41], 0)⟩, ⟨.file, 0, 0, some ([0x41], 0)⟩, ?_⟩
  decide +kernel

end Example

end Vlsmc.VfsDirectories
