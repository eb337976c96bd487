import Vlsmc.OpenFiles

/-!
# Reference counts of open files

In every run a `file` has as many references as there are descriptors that hold it, and a
vnode one for each `file` on it, one for each descriptor on it that was inherited, one for
each open of it that failed, and the one of the mounted root. So no descriptor outlives
its file, no file its vnode, and a file is freed with its last descriptor.
-/

set_option autoImplicit false

namespace Vlsmc.FileReferences
open Vlsmc.HolderCounts Vlsmc.CreatingOpens Vlsmc.OpenFiles

def slots : Finset (ℕ×ℕ) := Finset.range 32 ×ˢ Finset.range 16

def addresses : Finset ℕ := Finset.range (2^32)

def slotOf (s : Kernel) (p : ℕ×ℕ) : Option ℕ := (s.threads p.1).fdTable p.2

def fileVnode (s : Kernel) (a : ℕ) : Option ℕ := (s.files a).map File.vn

/-- Zero where there is no file. -/
def fileRefs (s : Kernel) (a : ℕ) : ℕ := (s.files a).elim 0 File.refcount

def vnodeRefs (s : Kernel) (v : ℕ) : ℕ := (s.vnodes v).elim 0 Vnode.refcount

/-- One reference more. -/
def bump (extra : ℕ → ℕ) (v : ℕ) : ℕ → ℕ := fun w => extra w+if w = v then 1 else 0

/-- The counts agree with the holders, where `extra` counts the references to vnodes that no
`file` has; no vnode has more than `bound`. -/
structure Exact (bound : ℕ) (s : Kernel) (extra : ℕ → ℕ) : Prop where
  files : ∀ a, fileRefs s a = held slots (slotOf s) a
  vnodes : ∀ v, vnodeRefs s v = held addresses (fileVnode s) v+extra v
  filePos : ∀ a f, s.files a = some f → 0 < f.refcount
  vnodePos : ∀ v vn, s.vnodes v = some vn → 0 < vn.refcount
  heap : ∀ a f, s.files a = some f → a < 2^32
  mounted : 0 < extra s.root
  small : ∀ v, vnodeRefs s v ≤ bound
  quiet : ∀ t i, t < 32 → i < 16 → (s.threads t).phase = .unused ∨ (s.threads t).phase = .zombie →
    (s.threads t).fdTable i = none

variable {B : ℕ} {s : Kernel} {extra : ℕ → ℕ} {a v t i : ℕ}

section Frames

variable (s)

@[simp] theorem addVnode_threads (v : ℕ) : (s.addVnode v).threads = s.threads := by
  unfold Kernel.addVnode
  split <;> rfl

@[simp] theorem addVnode_files (v : ℕ) : (s.addVnode v).files = s.files := by
  unfold Kernel.addVnode
  split <;> rfl

@[simp] theorem addVnode_root (v : ℕ) : (s.addVnode v).root = s.root := by
  unfold Kernel.addVnode
  split <;> rfl

@[simp] theorem addFile_threads (a : ℕ) : (s.addFile a).threads = s.threads := by
  unfold Kernel.addFile
  split <;> rfl

@[simp] theorem addFile_vnodes (a : ℕ) : (s.addFile a).vnodes = s.vnodes := by
  unfold Kernel.addFile
  split <;> rfl

@[simp] theorem addFile_root (a : ℕ) : (s.addFile a).root = s.root := by
  unfold Kernel.addFile
  split <;> rfl

@[simp] theorem vnodeRelease_threads (v : ℕ) : (s.vnodeRelease v).threads = s.threads := by
  unfold Kernel.vnodeRelease
  split <;> rfl

@[simp] theorem vnodeRelease_files (v : ℕ) : (s.vnodeRelease v).files = s.files := by
  unfold Kernel.vnodeRelease
  split <;> rfl

@[simp] theorem vnodeRelease_root (v : ℕ) : (s.vnodeRelease v).root = s.root := by
  unfold Kernel.vnodeRelease
  split <;> rfl

theorem setThread_same (t : ℕ) (th : Thread) : (s.setThread t th).threads t = th := if_pos rfl

theorem setThread_other {t u : ℕ} (th : Thread) (h : u ≠ t) :
    (s.setThread t th).threads u = s.threads u := if_neg h

theorem setSlot_phase (t i : ℕ) (x : Option ℕ) (u : ℕ) :
    ((s.setSlot t i x).threads u).phase = (s.threads u).phase := by
  by_cases h : u = t
  · subst h
    rw [Kernel.setSlot, setThread_same]
  · rw [Kernel.setSlot, setThread_other s _ h]

theorem slotOf_setSlot (t i : ℕ) (x : Option ℕ) :
    slotOf (s.setSlot t i x) = put (slotOf s) (t, i) x := by
  funext p
  by_cases ht : p.1 = t <;> by_cases hi : p.2 = i <;>
    simp [slotOf, Kernel.setSlot, Kernel.setThread, put, Prod.ext_iff, ht, hi]

end Frames

section Counts

theorem bump_other {w : ℕ} (h : w ≠ v) : bump extra v w = extra w := by
  rw [bump, if_neg h, Nat.add_zero]

theorem bump_self : bump extra v v = extra v+1 := by
  rw [bump, if_pos rfl]

/-- The count of one object after a change of its record. -/
theorem vnodeRefs_put (x : Option Vnode) (w : ℕ) :
    vnodeRefs { s with vnodes := put s.vnodes v x } w =
      if w = v then x.elim 0 Vnode.refcount else vnodeRefs s w := by
  by_cases h : w = v <;> simp [vnodeRefs, put, h]

theorem fileRefs_put (x : Option File) (b : ℕ) :
    fileRefs { s with files := put s.files a x } b =
      if b = a then x.elim 0 File.refcount else fileRefs s b := by
  by_cases h : b = a <;> simp [fileRefs, put, h]

theorem vnodeRefs_addVnode {vn : Vnode} (hv : s.vnodes v = some vn)
    (hlt : vn.refcount+1 < 2^32) (w : ℕ) :
    vnodeRefs (s.addVnode v) w = vnodeRefs s w+if w = v then 1 else 0 := by
  have he : s.addVnode v =
      { s with vnodes := put s.vnodes v (some { vn with refcount := up vn.refcount }) } := by
    rw [Kernel.addVnode, hv]
  rw [he, vnodeRefs_put]
  split_ifs with hw
  · rw [hw, vnodeRefs, hv]
    exact Nat.mod_eq_of_lt hlt
  · rfl

theorem down_pos {n : ℕ} (h0 : 0 < n) (hlt : n < 2^32) : down n = n-1 := by
  unfold down
  omega

/-- What a release leaves of an object. -/
theorem vnodeRelease_eq {vn : Vnode} (hv : s.vnodes v = some vn) (h0 : 0 < vn.refcount)
    (hlt : vn.refcount < 2^32) :
    s.vnodeRelease v = { s with vnodes := put s.vnodes v (if vn.refcount = 1 then none else some
      { vn with refcount := vn.refcount-1 }) } := by
  have hone : vn.refcount-1 = 0 ↔ vn.refcount = 1 := by omega
  simp only [Kernel.vnodeRelease, hv, down_pos h0 hlt, hone]

theorem vnodeRefs_release {vn : Vnode} (hv : s.vnodes v = some vn) (h0 : 0 < vn.refcount)
    (hlt : vn.refcount < 2^32) (w : ℕ) :
    vnodeRefs (s.vnodeRelease v) w+(if w = v then 1 else 0) = vnodeRefs s w := by
  rw [vnodeRelease_eq hv h0 hlt, vnodeRefs_put]
  by_cases hw : w = v
  · rw [if_pos hw, if_pos hw, hw, vnodeRefs, hv, Option.elim_some]
    split_ifs with hone
    · rw [hone, Option.elim_none]
    · exact Nat.sub_add_cancel h0
  · rw [if_neg hw, if_neg hw, Nat.add_zero]

theorem vnodeRefs_pos (h : 0 < vnodeRefs s v) : ∃ vn, s.vnodes v = some vn := by
  cases hv : s.vnodes v with
  | none => simp [vnodeRefs, hv] at h
  | some vn => exact ⟨vn, rfl⟩

theorem fileRefs_pos (h : 0 < fileRefs s a) : ∃ f, s.files a = some f := by
  cases ha : s.files a with
  | none => simp [fileRefs, ha] at h
  | some f => exact ⟨f, rfl⟩

theorem vnodeRefs_some {vn : Vnode} (hv : s.vnodes v = some vn) : vnodeRefs s v = vn.refcount := by
  rw [vnodeRefs, hv, Option.elim_some]

theorem fileRefs_some {f : File} (ha : s.files a = some f) : fileRefs s a = f.refcount := by
  rw [fileRefs, ha, Option.elim_some]

end Counts

section Vnodes

/-- A vnode that has a count has a record with it. -/
theorem Exact.vnode (h : Exact B s extra) (hv : 0 < vnodeRefs s v) :
    ∃ vn, s.vnodes v = some vn ∧ 0 < vn.refcount ∧ vn.refcount ≤ B := by
  obtain ⟨vn, hvn⟩ := vnodeRefs_pos hv
  refine ⟨vn, hvn, h.vnodePos v vn hvn, ?_⟩
  rw [← vnodeRefs_some hvn]
  exact h.small v

theorem Exact.mono {C : ℕ} (h : Exact B s extra) (hC : B ≤ C) : Exact C s extra :=
  { h with small := fun v => (h.small v).trans hC }

/-- Only vnodes change. -/
theorem Exact.changeVnodes {C : ℕ} {s' : Kernel} {extra' : ℕ → ℕ} (h : Exact B s extra)
    (hthreads : s'.threads = s.threads) (hfiles : s'.files = s.files) (hroot : s'.root = s.root)
    (hrefs : ∀ w, vnodeRefs s' w = held addresses (fileVnode s) w+extra' w)
    (hpos : ∀ w wn, s'.vnodes w = some wn → 0 < wn.refcount) (hmounted : 0 < extra' s.root)
    (hsmall : ∀ w, vnodeRefs s' w ≤ C) : Exact C s' extra' := by
  have hslot : slotOf s' = slotOf s := by
    funext p
    rw [slotOf, slotOf, hthreads]
  have hvnode : fileVnode s' = fileVnode s := by
    funext a
    rw [fileVnode, fileVnode, hfiles]
  constructor
  case files =>
    intro a
    rw [hslot, ← h.files a, fileRefs, fileRefs, hfiles]
  case vnodes =>
    intro w
    rw [hvnode, hrefs]
  case filePos =>
    rw [hfiles]
    exact h.filePos
  case vnodePos => exact hpos
  case heap =>
    rw [hfiles]
    exact h.heap
  case mounted =>
    rw [hroot]
    exact hmounted
  case small => exact hsmall
  case quiet =>
    rw [hthreads]
    exact h.quiet

theorem put_pos {x : Option Vnode} (hpos : ∀ w wn, s.vnodes w = some wn → 0 < wn.refcount)
    (hx : ∀ wn, x = some wn → 0 < wn.refcount) (w : ℕ) (wn : Vnode)
    (hw : put s.vnodes v x w = some wn) : 0 < wn.refcount := by
  by_cases he : w = v
  · rw [he, put_self] at hw
    exact hx wn hw
  · rw [put_other _ _ _ he] at hw
    exact hpos w wn hw

theorem Exact.addVnode (h : Exact B s extra) (hv : 0 < vnodeRefs s v) (hB : B+1 < 2^32) :
    Exact (B+1) (s.addVnode v) (bump extra v) := by
  obtain ⟨vn, hvn, -, hle⟩ := h.vnode hv
  have hlt : vn.refcount+1 < 2^32 := by omega
  have hrefs := vnodeRefs_addVnode hvn hlt
  have he : (s.addVnode v).vnodes = put s.vnodes v (some { vn with refcount := up vn.refcount }) := by
    rw [Kernel.addVnode, hvn]
  apply h.changeVnodes (addVnode_threads s v) (addVnode_files s v) (addVnode_root s v)
  · intro w
    rw [hrefs, h.vnodes w, bump, Nat.add_assoc]
  · rw [he]
    apply put_pos h.vnodePos
    intro wn hwn
    rw [← Option.some.inj hwn, up, Nat.mod_eq_of_lt hlt]
    exact Nat.succ_pos _
  · exact h.mounted.trans_le (Nat.le_add_right _ _)
  · intro w
    rw [hrefs]
    have hw := h.small w
    split_ifs <;> omega

/-- A reference that no file has is given back. -/
theorem Exact.release (h : Exact B s (bump extra v)) (hB : B < 2^32) (hroot : 0 < extra s.root) :
    Exact B (s.vnodeRelease v) extra := by
  have hpos : 0 < vnodeRefs s v := by
    rw [h.vnodes v, bump_self]
    omega
  obtain ⟨vn, hvn, h0, hle⟩ := h.vnode hpos
  have hlt : vn.refcount < 2^32 := by omega
  have hrefs := vnodeRefs_release hvn h0 hlt
  have he : (s.vnodeRelease v).vnodes = put s.vnodes v (if vn.refcount = 1 then none else some
      { vn with refcount := vn.refcount-1 }) := by
    rw [vnodeRelease_eq hvn h0 hlt]
  apply h.changeVnodes (vnodeRelease_threads s v) (vnodeRelease_files s v) (vnodeRelease_root s v)
  · intro w
    have hw := hrefs w
    rw [h.vnodes w, bump] at hw
    omega
  · rw [he]
    apply put_pos h.vnodePos
    intro wn hwn
    split_ifs at hwn with hone
    rw [← Option.some.inj hwn]
    exact Nat.sub_pos_of_lt (by omega)
  · exact hroot
  · intro w
    have hw := hrefs w
    have hs := h.small w
    omega

/-- A vnode that is made has the one reference of who looked it up. -/
theorem Exact.newVnode {l : Option Found} {s' : Kernel} (h : Exact B s extra)
    (hn : s.newVnode l = some (v, s')) : Exact B s' (bump extra v) ∧ v ≠ s.root ∧ s'.root = s.root := by
  cases l with
  | none => cases hn
  | some l =>
    unfold Kernel.newVnode at hn
    by_cases hfree : s.vnodes l.address = none
    case neg => simp [hfree] at hn
    simp only [hfree, if_true, Option.some.injEq, Prod.mk.injEq] at hn
    obtain ⟨hv, hs'⟩ := hn
    have hzero := h.vnodes l.address
    rw [vnodeRefs, hfree, Option.elim_none] at hzero
    have hm := h.mounted
    have hne : v ≠ s.root := by
      intro he
      rw [hv, he] at hzero
      omega
    have hone : 1 ≤ B := by
      have hr := h.vnodes s.root
      have hs := h.small s.root
      omega
    refine ⟨?_, hne, ?_⟩
    · rw [← hs', hv]
      refine h.changeVnodes ?_ ?_ ?_ ?_ ?_ ?_ ?_
      · rfl
      · rfl
      · rfl
      · intro w
        rw [vnodeRefs_put, bump]
        by_cases hw : w = v
        · rw [if_pos hw, if_pos hw, hw, Option.elim_some]
          rw [hv] at hzero
          change 1 = _
          omega
        · rw [if_neg hw, if_neg hw, Nat.add_zero]
          exact h.vnodes w
      · apply put_pos h.vnodePos
        intro wn hwn
        rw [← Option.some.inj hwn]
        exact Nat.one_pos
      · rw [bump_other hne.symm]
        exact hm
      · intro w
        rw [vnodeRefs_put]
        split_ifs
        · exact hone
        · exact h.small w
    · rw [← hs']

end Vnodes

section Paths

variable {s' : Kernel} {C : ℕ}

/-- A vnode that a path was resolved to stays referenced until it is released. -/
theorem resolveFrom_exact (trail : List (Option Found)) (hB : B+1 < 2^32) :
    ∀ (s : Kernel) (current : ℕ), 0 < extra s.root →
      Exact B s (if current = s.root then extra else bump extra current) →
      (∀ v s', s.resolveFrom current trail = (some v, s') →
        Exact (B+1) s' (bump extra v) ∧ s'.root = s.root) ∧
      (∀ s', s.resolveFrom current trail = (none, s') → Exact (B+1) s' extra ∧ s'.root = s.root) := by
  have hleave : ∀ (s : Kernel) (current : ℕ) (extra' : ℕ → ℕ), 0 < extra' s.root →
      Exact B s (if current = s.root then extra' else bump extra' current) →
      Exact B (s.leave current) extra' ∧ (s.leave current).root = s.root := by
    intro s current extra' hroot h
    unfold Kernel.leave
    by_cases hc : current = s.root
    · rw [if_pos hc] at h
      rw [if_neg (not_not.mpr hc)]
      exact ⟨h, rfl⟩
    · rw [if_neg hc] at h
      rw [if_pos hc]
      exact ⟨h.release (by omega) hroot, vnodeRelease_root s current⟩
  induction trail with
  | nil =>
    intro s current hroot h
    constructor
    · intro v s' hr
      simp only [Kernel.resolveFrom, Prod.mk.injEq, Option.some.injEq] at hr
      obtain ⟨hv, hs'⟩ := hr
      subst hv
      by_cases hc : current = s.root
      · rw [if_pos hc] at h hs'
        rw [← hs']
        refine ⟨h.addVnode ?_ hB, addVnode_root s current⟩
        have hm := h.mounted
        rw [h.vnodes current, hc]
        omega
      · rw [if_neg hc] at h hs'
        rw [← hs']
        exact ⟨h.mono (Nat.le_succ B), rfl⟩
    · intro s' hr
      cases hr
  | cons l trail ih =>
    intro s current hroot h
    cases hn : s.newVnode l with
    | none =>
      have he : s.resolveFrom current (l::trail) = (none, s.leave current) := by
        rw [Kernel.resolveFrom, hn]
      rw [he]
      obtain ⟨hleft, hsame⟩ := hleave s current extra hroot h
      constructor
      · intro v s' hr
        cases hr
      · intro s' hr
        cases hr
        exact ⟨hleft.mono (Nat.le_succ B), hsame⟩
    | some r =>
      obtain ⟨next, s₁⟩ := r
      have he : s.resolveFrom current (l::trail) = (s₁.leave current).resolveFrom next trail := by
        rw [Kernel.resolveFrom, hn]
      obtain ⟨hnew, hne, hsame⟩ := h.newVnode hn
      have hcomm : (bump (if current = s.root then extra else bump extra current) next) =
          if current = s₁.root then bump extra next else bump (bump extra next) current := by
        rw [hsame]
        split_ifs
        · rfl
        · funext w
          simp only [bump]
          ring
      rw [hcomm] at hnew
      obtain ⟨hleft, hsame'⟩ := hleave s₁ current (bump extra next) (by
        rw [hsame, bump_other hne.symm]
        exact hroot) hnew
      rw [he]
      have hroot' : (s₁.leave current).root = s.root := hsame'.trans hsame
      have hrest := ih (s₁.leave current) next (by rwa [hroot'])
        (by rwa [hroot', if_neg hne])
      rw [hroot'] at hrest
      exact hrest

end Paths

section Files

theorem mem_slots : (t, i) ∈ slots ↔ t < 32 ∧ i < 16 := by
  rw [slots, Finset.mem_product, Finset.mem_range, Finset.mem_range]

theorem held_slots_le (h : ℕ×ℕ → Option ℕ) (a : ℕ) : held slots h a ≤ 512 := by
  refine held_le.trans ?_
  rw [slots, Finset.card_product, Finset.card_range, Finset.card_range]

theorem mem_addresses : a ∈ addresses ↔ a < 2^32 := Finset.mem_range

theorem fileVnode_put (s : Kernel) (a : ℕ) (x : Option File) :
    fileVnode { s with files := put s.files a x } = put (fileVnode s) a (x.map File.vn) := by
  funext b
  by_cases h : b = a <;> simp [fileVnode, put, h]

/-- Only files and descriptors change. -/
theorem Exact.changeFiles {s' : Kernel} {extra' : ℕ → ℕ} (h : Exact B s extra)
    (hvnodes : s'.vnodes = s.vnodes) (hroot : s'.root = s.root)
    (hfiles : ∀ b, fileRefs s' b = held slots (slotOf s') b)
    (hheld : ∀ w, held addresses (fileVnode s') w+extra' w =
      held addresses (fileVnode s) w+extra w)
    (hpos : ∀ b f, s'.files b = some f → 0 < f.refcount ∧ b < 2^32) (hmounted : 0 < extra' s.root)
    (hquiet : ∀ t i, t < 32 → i < 16 →
      (s'.threads t).phase = .unused ∨ (s'.threads t).phase = .zombie →
      (s'.threads t).fdTable i = none) : Exact B s' extra' := by
  have hrefs : vnodeRefs s' = vnodeRefs s := by
    funext w
    rw [vnodeRefs, vnodeRefs, hvnodes]
  constructor
  case files => exact hfiles
  case vnodes =>
    intro w
    rw [hrefs, h.vnodes w, hheld]
  case filePos => exact fun b f hb => (hpos b f hb).1
  case vnodePos =>
    rw [hvnodes]
    exact h.vnodePos
  case heap => exact fun b f hb => (hpos b f hb).2
  case mounted =>
    rw [hroot]
    exact hmounted
  case small =>
    rw [hrefs]
    exact h.small
  case quiet => exact hquiet

theorem quiet_setSlot {x : Option ℕ}
    (hquiet : ∀ t i, t < 32 → i < 16 → (s.threads t).phase = .unused ∨ (s.threads t).phase = .zombie →
      (s.threads t).fdTable i = none)
    (hx : x = none ∨ (s.threads t).phase = .alive) (u j : ℕ) (hu : u < 32) (hj : j < 16)
    (hphase : ((s.setSlot t i x).threads u).phase = .unused ∨
      ((s.setSlot t i x).threads u).phase = .zombie) :
    ((s.setSlot t i x).threads u).fdTable j = none := by
  rw [setSlot_phase] at hphase
  change slotOf (s.setSlot t i x) (u, j) = none
  rw [slotOf_setSlot]
  by_cases he : (u, j) = (t, i)
  · rw [he, put_self]
    rcases hx with hx | hx
    · exact hx
    · have hu : u = t := congrArg Prod.fst he
      rw [hu, hx] at hphase
      simp at hphase
  · rw [put_other _ _ _ he]
    exact hquiet u j hu hj hphase

/-- A record put in or taken out keeps the others. -/
theorem files_pos {x : Option File} (h : Exact B s extra)
    (hx : ∀ f, x = some f → 0 < f.refcount ∧ a < 2^32) (b : ℕ) (f : File)
    (hb : put s.files a x b = some f) : 0 < f.refcount ∧ b < 2^32 := by
  by_cases he : b = a
  · rw [he, put_self] at hb
    rw [he]
    exact hx f hb
  · rw [put_other _ _ _ he] at hb
    exact ⟨h.filePos b f hb, h.heap b f hb⟩

/-- A descriptor and the record of its file change together. -/
theorem Exact.changeSlot {x : Option ℕ} {y : Option File} {extra' : ℕ → ℕ} (h : Exact B s extra)
    (ht : t < 32) (hi : i < 16) (hx : x = none ∨ (s.threads t).phase = .alive)
    (hcount : ∀ b, (if b = a then y.elim 0 File.refcount else fileRefs s b)+
      (if slotOf s (t, i) = some b then 1 else 0) =
        fileRefs s b+if x = some b then 1 else 0)
    (hheap : a < 2^32)
    (hvnode : ∀ w, (if y.map File.vn = some w then 1 else 0)+extra' w =
      (if fileVnode s a = some w then 1 else 0)+extra w)
    (hy : ∀ f, y = some f → 0 < f.refcount) (hmounted : 0 < extra' s.root) :
    Exact B ({ s with files := put s.files a y }.setSlot t i x) extra' := by
  have hslot : slotOf ({ s with files := put s.files a y }.setSlot t i x) =
      put (slotOf s) (t, i) x := slotOf_setSlot _ t i x
  refine h.changeFiles rfl rfl ?_ ?_ ?_ hmounted ?_
  · intro b
    have hput := held_put (h := slotOf s) (x := x) (a := b) (mem_slots.mpr ⟨ht, hi⟩)
    have hb := hcount b
    rw [hslot]
    rw [← h.files b] at hput
    have hrefs : fileRefs ({ s with files := put s.files a y }.setSlot t i x) b =
        if b = a then y.elim 0 File.refcount else fileRefs s b := fileRefs_put y b
    omega
  · intro w
    have hput := held_put (h := fileVnode s) (x := y.map File.vn) (a := w)
      (mem_addresses.mpr hheap)
    have hvn : fileVnode ({ s with files := put s.files a y }.setSlot t i x) =
        put (fileVnode s) a (y.map File.vn) := fileVnode_put s a y
    have hw := hvnode w
    rw [hvn]
    omega
  · exact files_pos h fun f hf => ⟨hy f hf, hheap⟩
  · exact quiet_setSlot h.quiet hx

section Slots

theorem slotRefs (h : Exact B s extra) (ht : t < 32) (hi : i < 16)
    (hs : (s.threads t).fdTable i = some a) :
    ∃ f, s.files a = some f ∧ 0 < f.refcount ∧ f.refcount ≤ 512 ∧ a < 2^32 := by
  have hpos : 0 < fileRefs s a := by
    rw [h.files a]
    exact held_pos.mpr ⟨(t, i), mem_slots.mpr ⟨ht, hi⟩, hs⟩
  obtain ⟨f, hf⟩ := fileRefs_pos hpos
  refine ⟨f, hf, h.filePos a f hf, ?_, h.heap a f hf⟩
  rw [← fileRefs_some hf, h.files a]
  exact held_slots_le _ a

theorem closeSlot_some (hs : (s.threads t).fdTable i = some a) :
    s.closeSlot t i = (s.fileRelease a).setSlot t i none := by
  rw [Kernel.closeSlot, hs]

theorem fileRelease_some {f : File} (hf : s.files a = some f) : s.fileRelease a =
    if down f.refcount = 0 then { s.vnodeRelease f.vn with files := put s.files a none }
    else { s with files := put s.files a (some { f with refcount := down f.refcount }) } := by
  rw [Kernel.fileRelease, hf]

/-- A descriptor is closed: its file loses a reference, and with the last one its vnode too. -/
theorem closeSlot_exact (h : Exact B s extra) (hB : B < 2^32) (ht : t < 32) (hi : i < 16) :
    Exact B (s.closeSlot t i) extra := by
  cases hs : (s.threads t).fdTable i with
  | none =>
    rw [Kernel.closeSlot, hs]
    exact h
  | some a =>
    obtain ⟨f, hf, h0, hle, hheap⟩ := slotRefs h ht hi hs
    have hdown : down f.refcount = f.refcount-1 := down_pos h0 (by omega)
    have hrefs := fileRefs_some hf
    by_cases hone : f.refcount = 1
    · have hzero : down f.refcount = 0 := by omega
      have he : s.closeSlot t i =
          ({ s with files := put s.files a none }.setSlot t i none).vnodeRelease f.vn := by
        rw [closeSlot_some hs, fileRelease_some hf, if_pos hzero]
        unfold Kernel.vnodeRelease Kernel.setSlot Kernel.setThread
        cases s.vnodes f.vn <;> rfl
      have hclosed : Exact B ({ s with files := put s.files a none }.setSlot t i none)
          (bump extra f.vn) := by
        apply h.changeSlot ht hi (.inl rfl) _ hheap _ (by simp)
        · exact h.mounted.trans_le (Nat.le_add_right _ _)
        · intro b
          rw [slotOf, hs]
          by_cases hb : b = a
          · rw [if_pos hb, hb, if_pos rfl, hrefs, hone]
            simp
          · rw [if_neg hb, if_neg fun he => hb (Option.some.inj he).symm]
            simp
        · intro w
          rw [fileVnode, hf]
          simp [bump, eq_comm, Nat.add_comm]
      rw [he]
      exact hclosed.release hB h.mounted
    · have hpos : down f.refcount ≠ 0 := by omega
      have he : s.closeSlot t i = { s with files := put s.files a (some
          { f with refcount := f.refcount-1 }) }.setSlot t i none := by
        rw [closeSlot_some hs, fileRelease_some hf, if_neg hpos, hdown]
      rw [he]
      apply h.changeSlot ht hi (.inl rfl) _ hheap _ _ h.mounted
      · intro b
        rw [slotOf, hs]
        by_cases hb : b = a
        · rw [if_pos hb, hb, if_pos rfl, hrefs]
          simp
          omega
        · rw [if_neg hb, if_neg fun he => hb (Option.some.inj he).symm]
          simp
      · intro w
        rw [fileVnode, hf]
        rfl
      · intro g hg
        rw [← Option.some.inj hg]
        exact Nat.sub_pos_of_lt (by omega)

/-- What closing a descriptor leaves alone. -/
theorem closeSlot_frame (s : Kernel) (t i : ℕ) : (s.closeSlot t i).root = s.root ∧
    (∀ u, ((s.closeSlot t i).threads u).phase = (s.threads u).phase) ∧
    slotOf (s.closeSlot t i) = put (slotOf s) (t, i) none := by
  have hrelease : ∀ a, (s.fileRelease a).root = s.root ∧ (s.fileRelease a).threads = s.threads := by
    intro a
    unfold Kernel.fileRelease
    split
    · exact ⟨rfl, rfl⟩
    · split_ifs
      · exact ⟨vnodeRelease_root _ _, vnodeRelease_threads _ _⟩
      · exact ⟨rfl, rfl⟩
  cases hs : (s.threads t).fdTable i with
  | none =>
    rw [Kernel.closeSlot, hs]
    refine ⟨rfl, fun u => rfl, ?_⟩
    funext q
    by_cases hq : q = (t, i)
    · rw [hq, put_self]
      exact hs
    · rw [put_other _ _ _ hq]
  | some a =>
    rw [closeSlot_some hs]
    refine ⟨(hrelease a).1, ?_, ?_⟩
    · intro u
      rw [setSlot_phase, (hrelease a).2]
    · have hslot : slotOf (s.fileRelease a) = slotOf s := by
        funext q
        rw [slotOf, slotOf, (hrelease a).2]
      rw [slotOf_setSlot, hslot]

/-- The loop that closes the descriptors below `n`. -/
theorem closeRange_exact (h : Exact B s extra) (hB : B < 2^32) (ht : t < 32) (n : ℕ) (hn : n ≤ 16) :
    let s' := (List.range n).foldl (fun s i => s.closeSlot t i) s
    Exact B s' extra ∧ s'.root = s.root ∧ (∀ u, (s'.threads u).phase = (s.threads u).phase) ∧
      ∀ q, slotOf s' q = if q.1 = t ∧ q.2 < n then none else slotOf s q := by
  induction n with
  | zero => exact ⟨h, rfl, fun u => rfl, fun q => (if_neg fun hq => Nat.not_lt_zero _ hq.2).symm⟩
  | succ n ih =>
    obtain ⟨hexact, hroot, hphase, hslot⟩ := ih (by omega)
    rw [List.range_succ, List.foldl_append, List.foldl_cons, List.foldl_nil]
    obtain ⟨hroot', hphase', hslot'⟩ :=
      closeSlot_frame ((List.range n).foldl (fun s i => s.closeSlot t i) s) t n
    refine ⟨closeSlot_exact hexact hB ht (by omega), hroot'.trans hroot, ?_, ?_⟩
    · intro u
      rw [hphase', hphase]
    · intro q
      rw [hslot']
      by_cases hq : q = (t, n)
      · rw [hq, put_self, if_pos ⟨rfl, Nat.lt_succ_self n⟩]
      · have hiff : (q.1 = t ∧ q.2 < n+1) ↔ (q.1 = t ∧ q.2 < n) := by
          constructor
          · rintro ⟨h1, h2⟩
            refine ⟨h1, ?_⟩
            have hne : q.2 ≠ n := fun he => hq (Prod.ext h1 he)
            omega
          · rintro ⟨h1, h2⟩
            exact ⟨h1, by omega⟩
        rw [put_other _ _ _ hq, hslot]
        simp only [hiff]

theorem closeAll_exact (h : Exact B s extra) (hB : B < 2^32) (ht : t < 32) :
    Exact B (s.closeAll t) extra ∧ (s.closeAll t).root = s.root ∧
      (∀ u, ((s.closeAll t).threads u).phase = (s.threads u).phase) ∧
      ∀ i < 16, slotOf (s.closeAll t) (t, i) = none := by
  obtain ⟨hexact, hroot, hphase, hslot⟩ := closeRange_exact h hB ht 16 le_rfl
  refine ⟨hexact, hroot, hphase, ?_⟩
  intro i hi
  rw [Kernel.closeAll, hslot, if_pos ⟨rfl, hi⟩]

/-- A thread's record changes but not its descriptors; one that becomes unused or a zombie
holds none. -/
theorem setThread_exact {th : Thread} (h : Exact B s extra)
    (htable : ∀ i < 16, th.fdTable i = slotOf s (t, i))
    (hempty : th.phase = .unused ∨ th.phase = .zombie → ∀ i < 16, slotOf s (t, i) = none) :
    Exact B (s.setThread t th) extra := by
  have hslot : ∀ q ∈ slots, slotOf (s.setThread t th) q = slotOf s q := by
    intro q hq
    rw [slotOf]
    by_cases hqt : q.1 = t
    · rw [hqt, setThread_same, htable q.2 (mem_slots.mp hq).2, ← hqt]
    · rw [setThread_other s th hqt, slotOf]
  refine h.changeFiles rfl rfl ?_ (fun w => rfl) (fun b f hb => ⟨h.filePos b f hb, h.heap b f hb⟩)
    h.mounted ?_
  · intro b
    rw [held_congr hslot]
    exact h.files b
  · intro u j hu hj hphase
    by_cases hut : u = t
    · rw [hut, setThread_same] at hphase ⊢
      rw [htable j hj]
      exact hempty hphase j hj
    · rw [setThread_other s th hut] at hphase ⊢
      exact h.quiet u j hu hj hphase

theorem setPhase_exact {phase : Phase} (h : Exact B s extra)
    (hempty : phase = .unused ∨ phase = .zombie → ∀ i < 16, slotOf s (t, i) = none) :
    Exact B (s.setPhase t phase) extra := setThread_exact h (fun _ _ => rfl) hempty

end Slots

section Inheritance

/-- The vnode of an open descriptor. -/
def vnodeAt (s : Kernel) (q : ℕ×ℕ) : Option ℕ := (slotOf s q).bind (fileVnode s)

variable {p c : ℕ}

theorem addFile_some {f : File} (hf : s.files a = some f) :
    s.addFile a = { s with files := put s.files a (some { f with refcount := up f.refcount }) } := by
  rw [Kernel.addFile, hf]

theorem inheritSlot_some {f : File} (hs : (s.threads p).fdTable i = some a)
    (hf : s.files a = some f) : Kernel.inheritSlot p c s i =
      ({ s with files := put s.files a (some { f with refcount := up f.refcount }) }.setSlot
        c i (some a)).addVnode f.vn := by
  have hfile : ((s.setSlot c i (some a)).addFile a) = { s with files := put s.files a (some
      { f with refcount := up f.refcount }) }.setSlot c i (some a) := addFile_some hf
  unfold Kernel.inheritSlot
  rw [hs]
  simp only [hfile]
  have hput : ({ s with files := put s.files a (some { f with refcount := up f.refcount }) }.setSlot
      c i (some a)).files a = some { f with refcount := up f.refcount } := put_self _ _ _
  rw [hput]

/-- A descriptor is inherited: its file and the vnode under it have a reference more. -/
theorem inheritSlot_exact (h : Exact B s extra) (hB : B+1 < 2^32) (hp : p < 32) (hc : c < 32)
    (hi : i < 16) (hempty : slotOf s (c, i) = none) (halive : (s.threads c).phase = .alive) :
    Exact (B+1) (Kernel.inheritSlot p c s i)
        (fun w => extra w+if vnodeAt s (p, i) = some w then 1 else 0) ∧
      (Kernel.inheritSlot p c s i).root = s.root ∧
      (∀ u, ((Kernel.inheritSlot p c s i).threads u).phase = (s.threads u).phase) ∧
      slotOf (Kernel.inheritSlot p c s i) = put (slotOf s) (c, i) (slotOf s (p, i)) ∧
      fileVnode (Kernel.inheritSlot p c s i) = fileVnode s := by
  cases hs : (s.threads p).fdTable i with
  | none =>
    have he : Kernel.inheritSlot p c s i = s.setSlot c i none := by
      unfold Kernel.inheritSlot
      rw [hs]
    have hslot : slotOf (s.setSlot c i none) = slotOf s := by
      rw [slotOf_setSlot]
      funext q
      by_cases hq : q = (c, i)
      · rw [hq, put_self, hempty]
      · rw [put_other _ _ _ hq]
    have hnone : slotOf s (p, i) = none := hs
    have hextra : (fun w => extra w+if vnodeAt s (p, i) = some w then 1 else 0) = extra := by
      funext w
      rw [vnodeAt, hnone]
      rfl
    rw [he, hextra, hnone]
    refine ⟨?_, rfl, setSlot_phase s c i none, slotOf_setSlot s c i none, rfl⟩
    refine (h.mono (Nat.le_succ B)).changeFiles rfl rfl ?_ (fun w => rfl)
      (fun b f hb => ⟨h.filePos b f hb, h.heap b f hb⟩) h.mounted (quiet_setSlot h.quiet (.inl rfl))
    intro b
    rw [hslot]
    exact h.files b
  | some a =>
    obtain ⟨f, hf, h0, hle, hheap⟩ := slotRefs h hp hi hs
    have hup : up f.refcount = f.refcount+1 := Nat.mod_eq_of_lt (by omega)
    rw [inheritSlot_some hs hf, hup]
    have hshared : Exact B ({ s with files := put s.files a (some
        { f with refcount := f.refcount+1 }) }.setSlot c i (some a)) extra := by
      apply h.changeSlot hc hi (.inr halive) _ hheap _ _ h.mounted
      · intro b
        rw [hempty]
        by_cases hb : b = a
        · rw [hb, fileRefs_some hf]
          simp
        · rw [if_neg hb, if_neg fun he => hb (Option.some.inj he).symm]
          simp
      · intro w
        rw [fileVnode, hf]
        rfl
      · intro g hg
        rw [← Option.some.inj hg]
        exact Nat.succ_pos _
    have hvn : fileVnode s a = some f.vn := by rw [fileVnode, hf, Option.map_some]
    have hpos : 0 < vnodeRefs s f.vn := by
      rw [h.vnodes f.vn]
      exact Nat.add_pos_left (held_pos.mpr ⟨a, mem_addresses.mpr hheap, hvn⟩) _
    have hextra : (fun w => extra w+if vnodeAt s (p, i) = some w then 1 else 0) =
        bump extra f.vn := by
      funext w
      have hat : vnodeAt s (p, i) = some f.vn := by
        rw [vnodeAt, slotOf, hs, Option.bind_some, hvn]
      simp only [hat, Option.some.injEq, bump, eq_comm]
    rw [hextra]
    refine ⟨hshared.addVnode hpos hB, addVnode_root _ _, ?_, ?_, ?_⟩
    · intro u
      rw [addVnode_threads, setSlot_phase]
    · funext q
      rw [slotOf, addVnode_threads]
      change slotOf (({ s with files := _ } : Kernel).setSlot c i (some a)) q = _
      rw [slotOf_setSlot]
      exact congrArg (put (slotOf s) (c, i) · q) hs.symm
    · funext b
      rw [fileVnode, addVnode_files]
      change fileVnode { s with files := put s.files a (some
        { f with refcount := f.refcount+1 }) } b = fileVnode s b
      rw [fileVnode_put]
      by_cases hb : b = a
      · rw [hb, put_self, hvn]
        rfl
      · rw [put_other _ _ _ hb]

/-- The references that the descriptors of `p` below `n` give to a child. -/
def inherits (s : Kernel) (p n w : ℕ) : ℕ := held (Finset.range n) (fun i => vnodeAt s (p, i)) w

theorem inheritRange_exact (h : Exact B s extra) (hB : B+16 < 2^32) (hp : p < 32) (hc : c < 32)
    (hne : p ≠ c) (hempty : ∀ i < 16, slotOf s (c, i) = none)
    (halive : (s.threads c).phase = .alive) (n : ℕ) (hn : n ≤ 16) :
    let s' := (List.range n).foldl (Kernel.inheritSlot p c) s
    Exact (B+n) s' (fun w => extra w+inherits s p n w) ∧ s'.root = s.root ∧
      (∀ u, (s'.threads u).phase = (s.threads u).phase) ∧ fileVnode s' = fileVnode s ∧
      ∀ q, q.1 ≠ c ∨ n ≤ q.2 → slotOf s' q = slotOf s q := by
  induction n with
  | zero =>
    refine ⟨?_, rfl, fun u => rfl, rfl, fun q hq => rfl⟩
    exact h
  | succ n ih =>
    obtain ⟨hexact, hroot, hphase, hvnode, hslot⟩ := ih (by omega)
    rw [List.range_succ, List.foldl_append, List.foldl_cons, List.foldl_nil]
    obtain ⟨hexact', hroot', hphase', hslot', hvnode'⟩ := inheritSlot_exact hexact (by omega) hp hc
      (by omega) ((hslot (c, n) (.inr le_rfl)).trans (hempty n (by omega)))
      ((hphase c).trans halive)
    refine ⟨?_, hroot'.trans hroot, ?_, hvnode'.trans hvnode, ?_⟩
    · have hat : vnodeAt ((List.range n).foldl (Kernel.inheritSlot p c) s) (p, n) =
          vnodeAt s (p, n) := by
        rw [vnodeAt, vnodeAt, hslot (p, n) (.inl hne), hvnode]
      rw [hat] at hexact'
      have hsum : (fun w => extra w+inherits s p n w+if vnodeAt s (p, n) = some w then 1 else 0) =
          fun w => extra w+inherits s p (n+1) w := by
        funext w
        rw [inherits, inherits, held_range_succ, Nat.add_assoc]
      rw [hsum] at hexact'
      exact hexact'
    · intro u
      rw [hphase', hphase]
    · intro q hq
      have hqn : q ≠ (c, n) := by
        intro he
        rw [he] at hq
        rcases hq with hq | hq
        · exact hq rfl
        · exact Nat.not_succ_le_self n hq
      rw [hslot', put_other _ _ _ hqn]
      apply hslot
      rcases hq with hq | hq
      · exact .inl hq
      · exact .inr (by omega)

end Inheritance

end Files

section Calls

variable {s' : Kernel} {trail : List (Option Found)}

theorem visit_exact (trail : List (Option Found)) (h : Exact B s extra) (hB : B+1 < 2^32) :
    Exact (B+1) (s.visit trail) extra ∧ (s.visit trail).root = s.root := by
  have hstart : Exact B s (if s.root = s.root then extra else bump extra s.root) := by
    rwa [if_pos rfl]
  obtain ⟨hsome, hnone⟩ := resolveFrom_exact trail hB s s.root h.mounted hstart
  cases hr : s.vfsResolvePath trail with
  | mk r s₁ =>
    cases r with
    | none =>
      have he : s.visit trail = s₁ := by rw [Kernel.visit, hr]
      rw [he]
      exact hnone s₁ hr
    | some v =>
      have he : s.visit trail = s₁.vnodeRelease v := by rw [Kernel.visit, hr]
      obtain ⟨hexact, hroot⟩ := hsome v s₁ hr
      rw [he]
      refine ⟨hexact.release (by omega) ?_, (vnodeRelease_root s₁ v).trans hroot⟩
      rw [hroot]
      exact h.mounted

/-- Looking up touches vnodes only. -/
theorem newVnode_frame {l : Option Found} (hn : s.newVnode l = some (v, s')) :
    s'.threads = s.threads ∧ s'.files = s.files := by
  cases l with
  | none => cases hn
  | some l =>
    simp only [Kernel.newVnode] at hn
    split_ifs at hn
    cases hn
    exact ⟨rfl, rfl⟩

theorem leave_frame (s : Kernel) (v : ℕ) :
    (s.leave v).threads = s.threads ∧ (s.leave v).files = s.files := by
  unfold Kernel.leave
  split_ifs
  · exact ⟨vnodeRelease_threads s v, vnodeRelease_files s v⟩
  · exact ⟨rfl, rfl⟩

theorem resolveFrom_frame (trail : List (Option Found)) (s : Kernel) (current : ℕ) :
    (s.resolveFrom current trail).2.threads = s.threads ∧
      (s.resolveFrom current trail).2.files = s.files := by
  induction trail generalizing s current with
  | nil =>
    simp only [Kernel.resolveFrom]
    split_ifs
    · exact ⟨addVnode_threads s current, addVnode_files s current⟩
    · exact ⟨rfl, rfl⟩
  | cons l trail ih =>
    cases hn : s.newVnode l with
    | none =>
      rw [Kernel.resolveFrom, hn]
      exact leave_frame s current
    | some r =>
      have he : s.resolveFrom current (l::trail) = (r.2.leave current).resolveFrom r.1 trail := by
        rw [Kernel.resolveFrom, hn]
      obtain ⟨hthreads, hfiles⟩ := newVnode_frame hn
      obtain ⟨hthreads', hfiles'⟩ := leave_frame r.2 current
      obtain ⟨hthreads'', hfiles''⟩ := ih (r.2.leave current) r.1
      rw [he]
      exact ⟨hthreads''.trans (hthreads'.trans hthreads), hfiles''.trans (hfiles'.trans hfiles)⟩

variable {creat : Bool} {created : Option Found}

/-- `vfs_open` up to `ops->open`: the caller gets a reference with the vnode. -/
theorem reach_exact (h : Exact B s extra) (hB : B+1 < 2^32) {r : Option ℕ}
    (hr : s.reach trail creat created = (r, s')) :
    Exact (B+1) s' (r.elim extra (bump extra)) ∧ s'.root = s.root ∧ s'.threads = s.threads ∧
      s'.files = s.files := by
  have hstart : Exact B s (if s.root = s.root then extra else bump extra s.root) := by
    rwa [if_pos rfl]
  obtain ⟨hsome, hnone⟩ := resolveFrom_exact trail hB s s.root h.mounted hstart
  obtain ⟨hthreads, hfiles⟩ := resolveFrom_frame trail s s.root
  unfold Kernel.reach at hr
  cases hp : s.vfsResolvePath trail with
  | mk found s₁ =>
    have hsnd : s₁ = (s.resolveFrom s.root trail).2 := (congrArg Prod.snd hp).symm
    rw [← hsnd] at hthreads hfiles
    rw [hp] at hr
    cases found with
    | some v =>
      cases hr
      obtain ⟨hexact, hroot⟩ := hsome v _ hp
      exact ⟨hexact, hroot, hthreads, hfiles⟩
    | none =>
      obtain ⟨hexact, hroot⟩ := hnone _ hp
      cases creat with
      | false =>
        cases hr
        exact ⟨hexact, hroot, hthreads, hfiles⟩
      | true =>
        simp only [if_true] at hr
        cases hn : s₁.newVnode created with
        | none =>
          rw [hn] at hr
          cases hr
          exact ⟨hexact, hroot, hthreads, hfiles⟩
        | some q =>
          rw [hn] at hr
          cases hr
          obtain ⟨hthreads', hfiles'⟩ := newVnode_frame hn
          obtain ⟨hnew, -, hroot'⟩ := hexact.newVnode hn
          exact ⟨hnew, hroot'.trans hroot, hthreads'.trans hthreads, hfiles'.trans hfiles⟩

theorem findFreeFd_some {fd : ℕ} (hf : s.findFreeFd t = some fd) :
    fd < 16 ∧ slotOf s (t, fd) = none := by
  have hfree := List.find?_some hf
  have hmem := List.mem_range.mp (List.mem_of_find?_eq_some hf)
  exact ⟨hmem, by simpa [slotOf] using hfree⟩

/-- The vnode of an open that fails. -/
def refusedBy (s : Kernel) (t : ℕ) (mode : ℤ) (trail : List (Option Found))
    (created : Option Found) (block : Option ℕ) : Option ℕ :=
  if (s.findFreeFd t).isSome ∧ (s.sysFopen t mode trail created block).1 = none then
    (s.reach trail (mapFlags mode &&& oCreat ≠ 0) created).1
  else none

theorem sysFopen_exact (trail : List (Option Found)) (created : Option Found) (mode : ℤ)
    (block : Option ℕ) (h : Exact B s extra) (hB : B+1 < 2^32) (ht : t < 32) (halive : (s.threads t).phase = .alive) :
    Exact (B+1) (s.sysFopen t mode trail created block).2
        ((refusedBy s t mode trail created block).elim extra (bump extra)) ∧
      (s.sysFopen t mode trail created block).2.root = s.root := by
  cases hfd : s.findFreeFd t with
  | none =>
    have he : s.sysFopen t mode trail created block = (none, s) := by rw [Kernel.sysFopen, hfd]
    have hrefused : refusedBy s t mode trail created block = none := by
      rw [refusedBy, hfd, if_neg (by simp)]
    rw [he, hrefused]
    exact ⟨h.mono (Nat.le_succ B), rfl⟩
  | some fd =>
    obtain ⟨hlt, hslot⟩ := findFreeFd_some hfd
    cases hr : s.reach trail (mapFlags mode &&& oCreat ≠ 0) created with
    | mk found s₁ =>
      obtain ⟨hexact, hroot, hthreads, hfiles⟩ := reach_exact h hB hr
      have hrefused : (s.sysFopen t mode trail created block).1 = none →
          refusedBy s t mode trail created block = found := by
        intro hnone
        rw [refusedBy, hfd, if_pos ⟨rfl, hnone⟩, hr]
      cases found with
      | none =>
        have he : s.sysFopen t mode trail created block = (none, s₁) := by
          simp only [Kernel.sysFopen, hfd, Kernel.vfsOpen, hr]
        rw [hrefused (by rw [he]), he]
        exact ⟨hexact, hroot⟩
      | some v =>
        by_cases hfile : (s₁.vnodes v).any Vnode.isFile = true
        case neg =>
          have he : s.sysFopen t mode trail created block = (none, s₁) := by
            simp only [Kernel.sysFopen, hfd, Kernel.vfsOpen, hr]
            rw [if_neg hfile]
          rw [hrefused (by rw [he]), he]
          exact ⟨hexact, hroot⟩
        have hopen : s.vfsOpen trail (mapFlags mode &&& oCreat ≠ 0) created = (some v, s₁) := by
          simp only [Kernel.vfsOpen, hr, if_pos hfile]
        cases hn : s₁.newFile block ⟨v, 0, mapFlags mode, 1⟩ with
        | none =>
          have he : s.sysFopen t mode trail created block = (none, s₁) := by
            simp only [Kernel.sysFopen, hfd, hopen, hn]
          rw [hrefused (by rw [he]), he]
          exact ⟨hexact, hroot⟩
        | some q =>
          have he : s.sysFopen t mode trail created block =
              (some (fd+3), q.2.setSlot t fd (some q.1)) := by
            simp only [Kernel.sysFopen, hfd, hopen, hn]
          have hkept : refusedBy s t mode trail created block = none := by
            rw [refusedBy, he, if_neg (by simp)]
          rw [hkept, he]
          cases block with
          | none => cases hn
          | some a =>
            simp only [Kernel.newFile] at hn
            split_ifs at hn with hfree
            cases hn
            refine ⟨?_, hroot⟩
            have hnone : fileRefs s₁ a = 0 := by rw [fileRefs, hfree.2, Option.elim_none]
            apply hexact.changeSlot ht hlt (.inr (by rw [hthreads, halive])) _ hfree.1
            · intro w
              rw [fileVnode, hfree.2]
              simp [bump, eq_comm, Nat.add_comm]
            · intro f hf
              rw [← Option.some.inj hf]
              exact Nat.one_pos
            · rw [hroot]
              exact h.mounted
            · intro b
              have hempty : slotOf s₁ (t, fd) = none := by rw [slotOf, hthreads]; exact hslot
              rw [hempty]
              by_cases hb : b = a
              · rw [if_pos hb, hb, hnone]
                simp
              · rw [if_neg hb, if_neg fun he => hb (Option.some.inj he).symm]
                simp

theorem advance_exact {f : File} (h : Exact B s extra) (hf : s.files a = some f) (moved : ℤ) :
    Exact B (s.advance a f moved).2 extra ∧ (s.advance a f moved).2.root = s.root := by
  unfold Kernel.advance
  split_ifs
  case neg => exact ⟨h, rfl⟩
  refine ⟨h.changeFiles rfl rfl ?_ ?_ ?_ h.mounted h.quiet, rfl⟩
  · intro b
    rw [fileRefs_put]
    by_cases hb : b = a
    · rw [if_pos hb, hb, Option.elim_some, ← fileRefs_some hf]
      exact h.files a
    · rw [if_neg hb]
      exact h.files b
  · intro w
    rw [fileVnode_put]
    have hsame : put (fileVnode s) a (some f.vn) = fileVnode s := by
      funext b
      by_cases hb : b = a
      · rw [hb, put_self, fileVnode, hf, Option.map_some]
      · rw [put_other _ _ _ hb]
    exact congrArg (held addresses · w+extra w) hsame
  · apply files_pos h
    intro g hg
    rw [← Option.some.inj hg]
    exact ⟨h.filePos a f hf, h.heap a f hf⟩

theorem descriptor_some {ebx : ℤ} {fd : ℕ} (hd : Kernel.descriptor ebx = some fd) : fd < 16 := by
  unfold Kernel.descriptor at hd
  split_ifs at hd with hout
  cases hd
  omega

theorem sysFclose_exact (h : Exact B s extra) (hB : B < 2^32) (ht : t < 32) (ebx : ℤ) :
    Exact B (s.sysFclose t ebx).2 extra ∧ (s.sysFclose t ebx).2.root = s.root := by
  cases hd : Kernel.descriptor ebx with
  | none =>
    rw [Kernel.sysFclose, hd]
    exact ⟨h, rfl⟩
  | some fd =>
    simp only [Kernel.sysFclose, hd]
    split_ifs
    · exact ⟨h, rfl⟩
    · exact ⟨closeSlot_exact h hB ht (descriptor_some hd), (closeSlot_frame s t fd).1⟩

theorem sysFread_exact (h : Exact B s extra) (t : ℕ) (ebx moved : ℤ) :
    Exact B (s.sysFread t ebx moved).2 extra ∧ (s.sysFread t ebx moved).2.root = s.root := by
  unfold Kernel.sysFread
  split
  · exact ⟨h, rfl⟩
  · split
    · exact ⟨h, rfl⟩
    · split
      · exact ⟨h, rfl⟩
      · next f hf =>
        split_ifs
        · exact ⟨h, rfl⟩
        · exact advance_exact h hf moved

theorem sysFwrite_exact (h : Exact B s extra) (t : ℕ) (ebx moved : ℤ) :
    Exact B (s.sysFwrite t ebx moved).2 extra ∧ (s.sysFwrite t ebx moved).2.root = s.root := by
  unfold Kernel.sysFwrite
  split
  · exact ⟨h, rfl⟩
  · split
    · exact ⟨h, rfl⟩
    · split
      · exact ⟨h, rfl⟩
      · next f hf => exact advance_exact h hf moved

theorem findUnused_some {c : ℕ} (hc : s.findUnused = some c) :
    c < 32 ∧ (s.threads c).phase = .unused := by
  have hfree := List.find?_some hc
  have hmem := List.mem_range'_1.mp (List.mem_of_find?_eq_some hc)
  exact ⟨by omega, by simpa using hfree⟩

/-- The references of the descriptors that a fork inherits, also if it fails later. -/
def inheritedBy (s : Kernel) (p w : ℕ) : ℕ :=
  if s.findUnused.isSome then inherits s p 16 w else 0

theorem sysFork_exact {p : ℕ} {cloned : Bool} (h : Exact B s extra) (hB : B+16 < 2^32) (hp : p < 32)
    (halive : (s.threads p).phase = .alive) :
    Exact (B+16) (s.sysFork p cloned).2 (fun w => extra w+inheritedBy s p w) ∧
      (s.sysFork p cloned).2.root = s.root := by
  cases hc : s.findUnused with
  | none =>
    have he : s.sysFork p cloned = (none, s) := by rw [Kernel.sysFork, hc]
    have hextra : (fun w => extra w+inheritedBy s p w) = extra := by
      funext w
      rw [inheritedBy, hc]
      rfl
    rw [he, hextra]
    exact ⟨h.mono (by omega), rfl⟩
  | some c =>
    obtain ⟨hc32, hunused⟩ := findUnused_some hc
    have hne : p ≠ c := by
      intro he
      rw [he, hunused] at halive
      cases halive
    have hquiet : ∀ i < 16, slotOf s (c, i) = none := fun i hi => h.quiet c i hc32 hi (.inl hunused)
    let s₁ := s.setThread c { s.threads c with phase := .alive, parentTid := p }
    have hstart : Exact B s₁ extra := setThread_exact h (fun _ _ => rfl) (fun _ => hquiet)
    have hslot : ∀ i, slotOf s₁ (c, i) = slotOf s (c, i) := by
      intro i
      rw [slotOf, setThread_same]
      rfl
    have hparent : ∀ i, slotOf s₁ (p, i) = slotOf s (p, i) := by
      intro i
      rw [slotOf, setThread_other s _ hne, slotOf]
    obtain ⟨hexact, hroot, -, -, -⟩ := inheritRange_exact hstart hB hp hc32 hne
      (fun i hi => (hslot i).trans (hquiet i hi)) (by rw [setThread_same]) 16 le_rfl
    have hextra : (fun w => extra w+inherits s₁ p 16 w) = fun w => extra w+inheritedBy s p w := by
      funext w
      rw [inheritedBy, hc, Option.isSome_some, if_pos rfl, inherits, inherits]
      congr 1
      apply held_congr
      intro i hi
      rw [vnodeAt, hparent, vnodeAt]
      rfl
    rw [hextra] at hexact
    cases cloned with
    | true =>
      have he : (s.sysFork p true).2 = (List.range 16).foldl (Kernel.inheritSlot p c) s₁ := by
        rw [Kernel.sysFork, hc]
        rfl
      rw [he]
      exact ⟨hexact, hroot⟩
    | false =>
      have he : (s.sysFork p false).2 =
          (((List.range 16).foldl (Kernel.inheritSlot p c) s₁).closeAll c).setPhase c .unused := by
        rw [Kernel.sysFork, hc]
        rfl
      obtain ⟨hclosed, hroot', -, hnone⟩ := closeAll_exact hexact hB hc32
      rw [he]
      exact ⟨setPhase_exact hclosed fun _ => hnone, hroot'.trans hroot⟩

theorem closeOnExec_exact (is : List ℕ) (h : Exact B s extra) (hB : B < 2^32) (ht : t < 32)
    (his : ∀ i ∈ is, i < 16) : Exact B (is.foldl (Kernel.closeOnExec t) s) extra ∧
      (is.foldl (Kernel.closeOnExec t) s).root = s.root := by
  induction is generalizing s with
  | nil => exact ⟨h, rfl⟩
  | cons i is ih =>
    have hi : i < 16 := his i List.mem_cons_self
    have hrest : ∀ j ∈ is, j < 16 := fun j hj => his j (List.mem_cons_of_mem i hj)
    have hround : Exact B (s.closeOnExec t i) extra ∧ (s.closeOnExec t i).root = s.root := by
      unfold Kernel.closeOnExec
      split_ifs
      · exact ⟨closeSlot_exact h hB ht hi, (closeSlot_frame s t i).1⟩
      · exact ⟨h, rfl⟩
    obtain ⟨hexact, hroot⟩ := ih hround.1 hrest
    exact ⟨hexact, hroot.trans hround.2⟩

theorem sysExec_exact {proceeds : Bool} (h : Exact B s extra) (hB : B+1 < 2^32) (ht : t < 32) :
    Exact (B+1) (s.sysExec t trail proceeds) extra ∧ (s.sysExec t trail proceeds).root = s.root := by
  obtain ⟨hexact, hroot⟩ := visit_exact trail h hB
  cases proceeds with
  | false => exact ⟨hexact, hroot⟩
  | true =>
    have hclosed := closeOnExec_exact (List.range 16) hexact hB ht fun i hi => List.mem_range.mp hi
    exact ⟨hclosed.1, hclosed.2.trans hroot⟩

theorem sysExit_exact (h : Exact B s extra) (hB : B < 2^32) (ht : t < 32) :
    Exact B (s.sysExit t) extra ∧ (s.sysExit t).root = s.root := by
  obtain ⟨hexact, hroot, -, hnone⟩ := closeAll_exact h hB ht
  unfold Kernel.sysExit
  simp only
  split_ifs
  · exact ⟨setPhase_exact hexact fun _ => hnone, hroot⟩
  · exact ⟨setPhase_exact hexact fun _ => hnone, hroot⟩

theorem threadCleanup_exact (h : Exact B s extra) (hB : B < 2^32) (ht : t < 32) :
    Exact B (s.threadCleanup t) extra ∧ (s.threadCleanup t).root = s.root := by
  obtain ⟨hexact, hroot, -, hnone⟩ := closeAll_exact h hB ht
  exact ⟨setPhase_exact hexact fun _ => hnone, hroot⟩

theorem sysWait_exact (h : Exact B s extra) :
    Exact B (s.sysWait t).2 extra ∧ (s.sysWait t).2.root = s.root := by
  cases hz : s.zombieOf t with
  | none =>
    rw [Kernel.sysWait, hz]
    exact ⟨h, rfl⟩
  | some c =>
    rw [Kernel.sysWait, hz]
    have hmem := List.mem_range'_1.mp (List.mem_of_find?_eq_some hz)
    have hzombie : (s.threads c).phase = .zombie := by
      have hc := List.find?_some hz
      simp only [decide_eq_true_iff] at hc
      exact hc.2
    exact ⟨setPhase_exact h fun _ i hi => h.quiet c i (by omega) hi (.inr hzombie), rfl⟩

theorem threadCreate_exact (h : Exact B s extra) :
    Exact B s.threadCreate extra ∧ s.threadCreate.root = s.root := by
  cases hc : s.findUnused with
  | none =>
    rw [Kernel.threadCreate, hc]
    exact ⟨h, rfl⟩
  | some c =>
    rw [Kernel.threadCreate, hc]
    obtain ⟨hc32, hunused⟩ := findUnused_some hc
    have hquiet : ∀ i < 16, slotOf s (c, i) = none := fun i hi => h.quiet c i hc32 hi (.inl hunused)
    exact ⟨setThread_exact h (fun i hi => (hquiet i hi).symm) fun _ => hquiet, rfl⟩

end Calls

section Runs

/-- A run with its count of the references to each vnode that no `file` has. -/
structure History where
  kernel : Kernel
  inherited : ℕ → ℕ
  refused : ℕ → ℕ

/-- The references that a step inherits, and those that it leaves to nobody. -/
def forked (s : Kernel) : Event → ℕ → ℕ
  | .fork p _ => inheritedBy s p
  | _ => fun _ => 0

def failed (s : Kernel) : Event → ℕ → ℕ
  | .fopen t mode trail created block => fun v =>
    if refusedBy s t mode trail created block = some v then 1 else 0
  | _ => fun _ => 0

namespace History

def start (root : ℕ) : History := ⟨.boot root, fun _ => 0, fun _ => 0⟩

def step (h : History) (e : Event) : History where
  kernel := h.kernel.step e
  inherited := fun v => h.inherited v+if h.kernel.takes e then forked h.kernel e v else 0
  refused := fun v => h.refused v+if h.kernel.takes e then failed h.kernel e v else 0

def run (h : History) (es : List Event) : History := es.foldl step h

/-- The references that no `file` has. -/
def others (h : History) (v : ℕ) : ℕ :=
  h.inherited v+h.refused v+if v = h.kernel.root then 1 else 0

end History

theorem apply_exact (h : Exact B s extra) (hB : B+16 < 2^32) (e : Event) (he : s.takes e = true) :
    Exact (B+16) (s.apply e) (fun v => extra v+forked s e v+failed s e v) ∧
      (s.apply e).root = s.root := by
  have hzero : (fun v => extra v+0+0) = extra := rfl
  have hbig : ∀ {s' : Kernel} {C : ℕ}, C ≤ B+16 → Exact C s' extra ∧ s'.root = s.root →
      Exact (B+16) s' (fun v => extra v+0+0) ∧ s'.root = s.root :=
    fun hC hs => ⟨hs.1.mono hC, hs.2⟩
  have hcaller : ∀ t, e.caller = some t → t < 32 ∧ (s.threads t).phase = .alive := by
    intro t ht
    rw [Kernel.takes, ht] at he
    simpa using he
  cases e with
  | fopen t mode trail created block =>
    obtain ⟨ht, halive⟩ := hcaller t rfl
    obtain ⟨hexact, hroot⟩ := sysFopen_exact trail created mode block h (by omega) ht halive
    have hextra : (refusedBy s t mode trail created block).elim extra (bump extra) =
        fun v => extra v+forked s (.fopen t mode trail created block) v+
          failed s (.fopen t mode trail created block) v := by
      funext v
      simp only [forked, failed]
      cases refusedBy s t mode trail created block with
      | none => rfl
      | some w => simp only [Option.elim_some, bump, Option.some.injEq, eq_comm, Nat.add_zero]
    rw [hextra] at hexact
    exact ⟨hexact.mono (by omega), hroot⟩
  | fclose t ebx => exact hbig (Nat.le_add_right B 16) (sysFclose_exact h (by omega) (hcaller t rfl).1 ebx)
  | fread t ebx moved => exact hbig (Nat.le_add_right B 16) (sysFread_exact h t ebx moved)
  | fwrite t ebx moved => exact hbig (Nat.le_add_right B 16) (sysFwrite_exact h t ebx moved)
  | visit trail => exact hbig (by omega) (visit_exact trail h (by omega))
  | fork t cloned =>
    obtain ⟨ht, halive⟩ := hcaller t rfl
    exact sysFork_exact h hB ht halive
  | exec t trail proceeds => exact hbig (by omega) (sysExec_exact h (by omega) (hcaller t rfl).1)
  | exit t => exact hbig (Nat.le_add_right B 16) (sysExit_exact h (by omega) (hcaller t rfl).1)
  | wait t => exact hbig (Nat.le_add_right B 16) (sysWait_exact h)
  | create => exact hbig (Nat.le_add_right B 16) (threadCreate_exact h)
  | terminate t =>
    apply hbig (Nat.le_add_right B 16)
    simp only [Kernel.apply]
    split_ifs
    · exact ⟨setPhase_exact h (by simp), rfl⟩
    · exact ⟨h, rfl⟩
  | cleanup t =>
    apply hbig (Nat.le_add_right B 16)
    simp only [Kernel.apply]
    split_ifs with ht
    · exact threadCleanup_exact h (by omega) ht.1
    · exact ⟨h, rfl⟩

theorem step_exact {h : History} (hk : Exact B h.kernel h.others) (hB : B+16 < 2^32) (e : Event) :
    Exact (B+16) (h.step e).kernel (h.step e).others ∧
      (h.step e).kernel.root = h.kernel.root := by
  cases he : h.kernel.takes e with
  | false =>
    have hkernel : (h.step e).kernel = h.kernel := by
      simp only [History.step, Kernel.step, he, Bool.false_eq_true, if_false]
    have hothers : (h.step e).others = h.others := by
      funext v
      simp only [History.others, History.step, Kernel.step, he, Bool.false_eq_true, if_false,
        Nat.add_zero]
    rw [hkernel, hothers]
    exact ⟨hk.mono (Nat.le_add_right B 16), rfl⟩
  | true =>
    obtain ⟨hexact, hroot⟩ := apply_exact hk hB e he
    have hkernel : (h.step e).kernel = h.kernel.apply e := by
      simp only [History.step, Kernel.step, he, if_true]
    have hothers : (h.step e).others =
        fun v => h.others v+forked h.kernel e v+failed h.kernel e v := by
      funext v
      simp only [History.others, hkernel, hroot]
      simp only [History.step, he, if_true]
      ring
    rw [hkernel, hothers]
    exact ⟨hexact, hroot⟩

theorem run_exact (es : List Event) {h : History} (hk : Exact B h.kernel h.others)
    (hB : B+16*es.length < 2^32) :
    Exact (B+16*es.length) (h.run es).kernel (h.run es).others ∧
      (h.run es).kernel.root = h.kernel.root := by
  induction es generalizing B h with
  | nil => exact ⟨hk, rfl⟩
  | cons e es ih =>
    rw [List.length_cons] at hB ⊢
    obtain ⟨hstep, hroot⟩ := step_exact hk (by omega) e
    obtain ⟨hexact, hroot'⟩ := ih hstep (by omega)
    exact ⟨hexact.mono (by omega), hroot'.trans hroot⟩

theorem start_exact (root : ℕ) : Exact 1 (History.start root).kernel (History.start root).others := by
  have hslots : ∀ q, slotOf (Kernel.boot root) q = none := fun q => rfl
  have hfiles : ∀ a, (Kernel.boot root).files a = none := fun a => rfl
  have hvnodes : ∀ v, vnodeRefs (Kernel.boot root) v = if v = root then 1 else 0 := by
    intro v
    by_cases hv : v = root <;> simp [vnodeRefs, Kernel.boot, put, hv]
  constructor
  case files =>
    intro a
    have hnone : ¬0 < held slots (slotOf (Kernel.boot root)) a := by
      rw [held_pos]
      rintro ⟨q, -, hq⟩
      cases hq
    exact (Nat.eq_zero_of_not_pos hnone).symm
  case vnodes =>
    intro v
    have hnone : ¬0 < held addresses (fileVnode (Kernel.boot root)) v := by
      rw [held_pos]
      rintro ⟨a, -, ha⟩
      cases ha
    have hv := hvnodes v
    have hothers : (History.start root).others v = if v = root then 1 else 0 := Nat.zero_add _
    change vnodeRefs (Kernel.boot root) v = held addresses (fileVnode (Kernel.boot root)) v+_
    omega
  case filePos =>
    intro a f hf
    cases hf
  case vnodePos =>
    apply put_pos (s := { Kernel.boot root with vnodes := fun _ => none })
    · intro w wn hw
      cases hw
    · intro wn hwn
      rw [← Option.some.inj hwn]
      exact Nat.one_pos
  case heap =>
    intro a f hf
    cases hf
  case mounted =>
    have hothers : (History.start root).others root = 1 := by
      simp [History.others, History.start, Kernel.boot]
    change 0 < (History.start root).others root
    omega
  case small =>
    intro v
    change vnodeRefs (Kernel.boot root) v ≤ 1
    rw [hvnodes]
    split_ifs <;> omega
  case quiet => exact fun t i _ _ _ => rfl

/-- A file is opened, inherited by a child and closed by the parent. -/
def handedDown : List Event :=
  [.fopen 0 1 [some ⟨7, true⟩] none (some 9), .fork 0 true, .fclose 0 3]

end Runs

end Vlsmc.FileReferences
