import Vlsmc.FreeSlots
import Vlsmc.TableSafety

/-!
# Where the volume ends

`alloc_cluster` takes its bound from the size of the table. `init` computes how many clusters the
volume has, and discards the number. A call stays inside the volume exactly when it finds so many
free clusters there as it takes, or the table offers no others, and the slots that it fills lie
there too.
-/

set_option autoImplicit false

namespace Vlsmc.VolumeEnds
open Vlsmc.Fat16Layout Vlsmc.Fat16Volume Vlsmc.Fat16Files Vlsmc.Fat16Geometry Vlsmc.Fat16Chains
open Vlsmc.Fat16Store Vlsmc.Fat16Mount Vlsmc.Fat16Runs Vlsmc.DirectoryEdits Vlsmc.FirstFit
open Vlsmc.TableAccesses Vlsmc.TableSafety Vlsmc.VolumeWrites Vlsmc.FreeSlots Vlsmc.Words

section Counting

/-- The first elements of an increasing list are small when it has so many small ones, or no
others. -/
theorem take_small_iff {l : List ℕ} (h : l.Pairwise (·<·)) (n m : ℕ) :
    (∀ c ∈ l.take n, c < m) ↔ n ≤ (l.filter fun c => c < m).length ∨ ∀ c ∈ l, c < m := by
  induction l generalizing n with
  | nil => simp
  | cons a t ih =>
    obtain ⟨ha, ht⟩ := List.pairwise_cons.mp h
    cases n with
    | zero => simp
    | succ n =>
      by_cases hlt : a < m
      · simp [hlt, ih ht n]
      · have hnil : (a::t).filter (fun c => c < m) = [] := by
          apply List.filter_eq_nil_iff.mpr
          intro c hc
          rcases List.mem_cons.mp hc with rfl | hc
          · simpa using hlt
          · have := ha c hc
            simp only [decide_eq_true_eq]
            omega
        simp [hlt, hnil]

variable (T : ℕ) (v : Volume)

/-- `total_clusters`, for a volume of `T` sectors. -/
def totalClusters (b : Bpb) : ℕ := (T-b.dataStartLba)/b.spc

/-- So many free clusters are in the volume, or no others are free. -/
def Room (n : ℕ) : Prop :=
  n ≤ ((freeList v).filter fun c => c < totalClusters T v.bpb+2).length ∨
    ∀ c ∈ freeList v, c < totalClusters T v.bpb+2

/-- `cluster_to_lba(c)` and the other sectors of a returned cluster, or the sector of a write, lie
in the volume. -/
def Inside (b : Bpb) : Event → Prop
  | .took c => ∀ lba ∈ b.clusterLbas c, lba < T
  | .wrote lba _ => lba < T

/-- The geometry of a mounted volume. -/
structure Based (b : Bpb) : Prop where
  cluster : 1 ≤ b.spc
  start : b.dataStartLba ≤ T

variable {T v} {b : Bpb} (hb : Based T b)

include hb

theorem exists_iff {c : ℕ} (hpos : 2 ≤ c) (hc : c < 65536) :
    (∀ lba ∈ b.clusterLbas c, lba < T) ↔ c < totalClusters T b+2 := by
  have hnext : (c-2+1)*b.spc = offset b c+b.spc := Nat.succ_mul _ _
  have hdiv : c < totalClusters T b+2 ↔ b.dataStartLba+(offset b c+b.spc) ≤ T := by
    have hstart := hb.start
    rw [← hnext, ← Nat.le_sub_iff_add_le' hstart, ← Nat.le_div_iff_mul_le hb.cluster]
    change c < totalClusters T b+2 ↔ c-2+1 ≤ totalClusters T b
    omega
  have hspc := hb.cluster
  simp only [mem_clusterLbas_wide b hpos hc, hdiv]
  constructor
  · intro h
    have := h (b.dataStartLba+offset b c+b.spc-1) ⟨by omega, by omega⟩
    omega
  · intro h lba hl
    omega

theorem first_lba (c : ℕ) : b.clusterToLba c ∈ b.clusterLbas c := by
  apply List.mem_map.mpr
  refine ⟨0, List.mem_range.mpr hb.cluster, ?_⟩
  rw [Nat.add_zero, Bpb.clusterToLba]
  exact Nat.mod_mod _ _

omit hb

theorem freeList_sorted (v : Volume) : (freeList v).Pairwise (·<·) :=
  List.Pairwise.filter _ List.pairwise_lt_range'

/-- The next free clusters lie in the volume. -/
theorem room_iff (hb : Based T v.bpb) (n : ℕ) :
    Room T v n ↔ ∀ c ∈ (freeList v).take n, ∀ lba ∈ v.bpb.clusterLbas c, lba < T := by
  rw [Room, ← take_small_iff (freeList_sorted v)]
  apply forall₂_congr
  intro c hc
  have hr := (mem_freeList.mp (List.mem_of_mem_take hc)).1
  exact (exists_iff hb hr.1 (lt_wide _ hr.2)).symm

theorem room_cons (hb : Based T v.bpb) {c : ℕ} {rest : List ℕ} (h : freeList v = c::rest) :
    Room T v 1 ↔ ∀ lba ∈ v.bpb.clusterLbas c, lba < T := by
  rw [room_iff hb, h, List.take_succ_cons, List.take_zero]
  exact List.forall_mem_singleton

theorem room_nil (h : freeList v = []) (n : ℕ) : Room T v n := by
  refine Or.inr fun c hc => ?_
  rw [h] at hc
  cases hc

end Counting

section Searching

variable {T : ℕ} {v : Volume} {dir : ℕ}

def AllInside (T : ℕ) (b : Bpb) (es : List Event) : Prop := ∀ e ∈ es, Inside T b e

theorem allInside_append {b : Bpb} {es fs : List Event} :
    AllInside T b (es++fs) ↔ AllInside T b es ∧ AllInside T b fs := List.forall_mem_append

theorem allInside_cons {b : Bpb} {e : Event} {es : List Event} :
    AllInside T b (e::es) ↔ Inside T b e ∧ AllInside T b es := List.forall_mem_cons

theorem allInside_nil (b : Bpb) : AllInside T b [] := fun _ he => by cases he

theorem allInside_written {b : Bpb} {ws : List (ℕ × Sector)} (h : ∀ w ∈ ws, w.1 < T) :
    AllInside T b (written ws) := by
  intro e he
  obtain ⟨w, hw, rfl⟩ := List.mem_map.mp he
  exact h w hw

/-- The copies of the table lie before the clusters. -/
theorem flush_inside (h : v.bpb.dataStartLba ≤ T) : ∀ w ∈ v.flushWrites, w.1 < T := by
  intro w hw
  obtain ⟨s, hs, f, hf, rfl⟩ := flushWrites_mem v hw
  have hcopy := (copy_region (b := v.bpb) hf hs).2
  have hroot : v.bpb.rootDirLba ≤ v.bpb.dataStartLba := Nat.le_add_right _ _
  dsimp only
  omega

theorem clear_inside {b : Bpb} {c : ℕ} (h : ∀ lba ∈ b.clusterLbas c, lba < T) :
    ∀ w ∈ Volume.clearWrites b c, w.1 < T := by
  intro w hw
  obtain ⟨lba, hl, rfl⟩ := List.mem_map.mp hw
  exact h lba hl

theorem newDir_inside {b : Bpb} (hb : Based T b) {c : ℕ} (h : ∀ lba ∈ b.clusterLbas c, lba < T)
    (parent : ℕ) : ∀ w ∈ newDirWrites b c parent, w.1 < T := by
  intro w hw
  rcases List.mem_cons.mp hw with rfl | hw
  · exact h _ (first_lba hb c)
  · obtain ⟨s, hs, rfl⟩ := List.mem_map.mp hw
    rw [List.mem_range'_1] at hs
    exact h _ (List.mem_map.mpr ⟨s, List.mem_range.mpr (by omega), rfl⟩)

variable (hb : Based T v.bpb)

include hb

/-- Extending a directory takes a cluster. -/
theorem extend_inside (prev : ℕ) : AllInside T v.bpb (extendEvents v prev) ↔ Room T v 1 := by
  rw [extendEvents]
  rcases alloc_cases v with ⟨hc, ha⟩ | ⟨k, rest, hc, ha⟩
  · rw [ha]
    exact iff_of_true (allInside_nil _) (room_nil hc 1)
  · rw [ha]
    change AllInside T v.bpb (.took (k+1)::written (((v.setFat (k+1) 0xFFFF).setFat prev
      (k+1)).flushWrites++Volume.clearWrites v.bpb (k+1))) ↔ _
    rw [room_cons hb hc, allInside_cons]
    apply and_iff_left_of_imp
    intro h
    apply allInside_written
    intro w hw
    rcases List.mem_append.mp hw with hw | hw
    · exact flush_inside (v := (v.setFat (k+1) 0xFFFF).setFat prev (k+1)) hb.start w hw
    · exact clear_inside h w hw

variable (hm : v.mounted = true)

include hm

/-- The search for a slot takes a cluster for a full directory. -/
theorem findFree_inside : AllInside T v.bpb (findFreeEvents v dir) ↔
    ∀ n, Full v dir n → Room T v 1 := by
  rw [(findFree_search hm dir).2, forall_full (P := fun _ => Room T v 1)]
  cases slotSearch v dir with
  | none => exact iff_of_true (allInside_nil _) fun _ h => by cases h
  | some r =>
    cases r with
    | inl p => exact iff_of_true (allInside_nil _) fun _ h => by cases h
    | inr prev =>
      simp only [Option.some.injEq, Sum.inr.injEq, forall_eq']
      exact extend_inside hb prev

end Searching

section Linking

variable (T : ℕ) (v : Volume) (dir : ℕ)

/-- A full directory can be extended in the volume; the free slot of another lies there. -/
def LinkFits : Prop := (∀ n, Full v dir n → Room T v 1) ∧ ∀ p, FreeSlot v dir p → p.1 < T

variable {T v dir}

theorem extendDir_slot (prev : ℕ) : (freeList v = [] ∧ v.extendDir prev = (none, v)) ∨
    ∃ c rest w, freeList v = c::rest ∧ v.extendDir prev = (some (v.bpb.clusterToLba c, 0), w) ∧
      w.bpb = v.bpb ∧ w.fatTable = ((v.setFat c 0xFFFF).setFat prev c).fatTable := by
  rw [Volume.extendDir]
  rcases alloc_cases v with ⟨hc, ha⟩ | ⟨k, rest, hc, ha⟩
  · rw [ha]
    exact Or.inl ⟨hc, rfl⟩
  · rw [ha]
    exact Or.inr ⟨k+1, rest, _, hc, rfl, rfl, rfl⟩

theorem link_inside (dir : ℕ) (hb : Based T v.bpb) (hm : v.mounted = true) (name : List UInt8)
    (first size : ℕ) (now : Stamp) :
    AllInside T v.bpb (linkEvents v dir name first size now) ↔ LinkFits T v dir := by
  rw [linkEvents, allInside_append, findFree_inside hb hm, LinkFits]
  apply and_congr_right
  rw [forall_full (P := fun _ => Room T v 1)]
  simp only [freeSlot_iff]
  rw [(findFree_search hm dir).1]
  cases slotSearch v dir with
  | none =>
    intro _
    refine iff_of_true ?_ fun _ h => by cases h
    dsimp only
    split_ifs <;> exact allInside_nil _
  | some r =>
    cases r with
    | inl p =>
      intro _
      simp only [Option.some.injEq, Sum.inl.injEq, forall_eq']
      exact allInside_cons.trans (and_iff_left (allInside_nil _))
    | inr prev =>
      intro hroom
      refine iff_of_true ?_ fun _ h => by cases h
      rcases extendDir_slot (v := v) prev with ⟨-, he⟩ | ⟨c, rest, w, hc, he, -⟩
      · dsimp only
        rw [he]
        exact allInside_nil _
      · dsimp only
        rw [he]
        refine allInside_cons.mpr ⟨?_, allInside_nil _⟩
        exact (room_cons hb hc).mp (hroom prev rfl) _ (first_lba hb c)

end Linking

section Storing

variable {T : ℕ} {v u : Volume} {data : List UInt8} {cs : List ℕ}

/-- The volume after further clusters were linked and filled, one after another. -/
def fillInto (b : Bpb) (data : List UInt8) : Volume → List ℕ → List ℕ → Volume
  | u, _, [] => u
  | u, cs, c::rest => fillInto b data (stepped b u data cs c) (cs++[c]) rest

/-- The volume with the bytes in those clusters. -/
def filledWith (v : Volume) (data : List UInt8) (cs : List ℕ) : Volume :=
  fillInto v.bpb data v [] cs

theorem fillWrites_lba {lba n s pos : ℕ} :
    ∀ w ∈ fillWrites data lba n s pos, ∃ j < n, w.1 = u32 (lba+(s+j)) := by
  induction n generalizing s pos with
  | zero => intro w hw; cases hw
  | succ n ih =>
    intro w hw
    rw [fillWrites] at hw
    split_ifs at hw
    · rcases List.mem_cons.mp hw with rfl | hw
      · exact ⟨0, Nat.succ_pos n, rfl⟩
      · obtain ⟨j, hj, he⟩ := ih w hw
        exact ⟨j+1, by omega, by rw [he, show s+1+j = s+(j+1) by omega]⟩
    · rcases List.mem_cons.mp hw with rfl | hw
      · exact ⟨0, Nat.succ_pos n, rfl⟩
      · obtain ⟨j, hj, he⟩ := ih w hw
        exact ⟨j+1, by omega, by rw [he, show s+1+j = s+(j+1) by omega]⟩
    · cases hw

theorem fill_inside {b : Bpb} {c pos : ℕ} (h : ∀ lba ∈ b.clusterLbas c, lba < T) :
    ∀ w ∈ fillWrites data (b.clusterToLba c) b.spc 0 pos, w.1 < T := by
  intro w hw
  obtain ⟨j, hj, he⟩ := fillWrites_lba w hw
  rw [Nat.zero_add] at he
  exact h _ (List.mem_map.mpr ⟨j, List.mem_range.mpr hj, he.symm⟩)

theorem storeEvents_next (h : Taken v u cs) (hlt : filled v.bpb data cs < data.length) {c : ℕ}
    {rest : List ℕ} (hc : freeList u = c::rest) (fuel : ℕ) :
    storeEvents data (fuel+1) u (cs.headD 0) (cs.getLastD 0) (filled v.bpb data cs) =
      .took c::(written (fillWrites data (v.bpb.clusterToLba c) v.bpb.spc 0
        (filled v.bpb data cs))++storeEvents data fuel (stepped v.bpb u data cs c)
          ((cs++[c]).headD 0) ((cs++[c]).getLastD 0) (filled v.bpb data (cs++[c]))) := by
  have hlast : (cs++[c]).getLastD 0 = c := by simp
  obtain ⟨hstep, hpos⟩ := taken_round data h hc
  obtain ⟨k, rfl, halloc⟩ := alloc_first hc
  rw [storeEvents, if_pos hlt, halloc, hlast, ← taken_first h, ← hstep, ← hpos, ← h.bpb]
  rfl

/-- When no cluster is free, only the table is written. -/
theorem storeEvents_full (h : Taken v u cs) (hstart : v.bpb.dataStartLba ≤ T)
    (hlt : filled v.bpb data cs < data.length) (hc : freeList u = []) (fuel first prev : ℕ) :
    AllInside T v.bpb
      (storeEvents data (fuel+1) u first prev (filled v.bpb data cs)) := by
  rcases alloc_cases u with ⟨-, halloc⟩ | ⟨k, t, hk, -⟩
  · rw [storeEvents, if_pos hlt, halloc]
    rw [← h.bpb] at hstart ⊢
    by_cases hfirst : first = 0
    · simp only [hfirst, if_true]
      exact allInside_written (flush_inside hstart)
    · obtain ⟨w, hw⟩ := freeChain_returns u first
      simp only [hfirst, if_false, hw]
      have hb := (yields_freeChain hw).bpb
      exact allInside_written (flush_inside (by rwa [hb]))
  · rw [hc] at hk
    cases hk

/-- The clusters that the loop takes are the first free ones, as many as the bytes need. -/
theorem store_inside (data : List UInt8) (hb : Based T v.bpb) (fuel : ℕ) (h : Taken v u cs)
    (hle : cs.length ≤ needed v.bpb data.length) (hfuel : (freeList u).length < fuel) :
    AllInside T v.bpb
      (storeEvents data fuel u (cs.headD 0) (cs.getLastD 0) (filled v.bpb data cs)) ↔
    ∀ c ∈ (freeList u).take (needed v.bpb data.length-cs.length),
      ∀ lba ∈ v.bpb.clusterLbas c, lba < T := by
  induction fuel generalizing u cs with
  | zero => omega
  | succ fuel ih =>
    by_cases hlt : filled v.bpb data cs < data.length
    · have hmore := (filled_lt hb.cluster).mp hlt
      cases hc : freeList u with
      | nil =>
        refine iff_of_true (storeEvents_full h hb.start hlt hc _ _ _) fun c hm => ?_
        rw [List.take_nil] at hm
        cases hm
      | cons c rest =>
        obtain ⟨hstep, hrest⟩ := taken_step data h hc
        have hlen : (cs++[c]).length = cs.length+1 := by simp
        have hleft : needed v.bpb data.length-cs.length =
            needed v.bpb data.length-(cs++[c]).length+1 := by omega
        have hrun := ih hstep (by omega) (by
          rw [hc, List.length_cons] at hfuel
          rw [hrest]
          omega)
        rw [hrest] at hrun
        rw [storeEvents_next h hlt hc, hleft, List.take_succ_cons, List.forall_mem_cons, ← hrun,
          allInside_cons, allInside_append]
        apply and_congr_right
        intro hin
        exact and_iff_right (allInside_written (fill_inside hin))
    · have hdone := mt (filled_lt hb.cluster).mpr hlt
      rw [storeEvents, if_neg hlt, show needed v.bpb data.length-cs.length = 0 by omega,
        List.take_zero]
      exact iff_of_true (allInside_nil _) fun c hm => by cases hm

/-- With so many free clusters the bytes are stored in the first of them. -/
theorem store_result (data : List UInt8) (hspc : 1 ≤ v.bpb.spc) (fuel : ℕ) (h : Taken v u cs)
    (hle : cs.length ≤ needed v.bpb data.length) (hfuel : (freeList u).length < fuel)
    (henough : needed v.bpb data.length-cs.length ≤ (freeList u).length) :
    ∃ first, storeLoop data fuel u (cs.headD 0) (cs.getLastD 0) (filled v.bpb data cs) =
      some (some first, fillInto v.bpb data u cs
        ((freeList u).take (needed v.bpb data.length-cs.length))) := by
  induction fuel generalizing u cs with
  | zero => omega
  | succ fuel ih =>
    by_cases hlt : filled v.bpb data cs < data.length
    · have hmore := (filled_lt hspc).mp hlt
      cases hc : freeList u with
      | nil =>
        rw [hc, List.length_nil] at henough
        omega
      | cons c rest =>
        obtain ⟨hstep, hrest⟩ := taken_step data h hc
        have hlen : (cs++[c]).length = cs.length+1 := by simp
        have hlast : (cs++[c]).getLastD 0 = c := by simp
        have hleft : needed v.bpb data.length-cs.length =
            needed v.bpb data.length-(cs++[c]).length+1 := by omega
        rw [hc, List.length_cons] at hfuel henough
        have hrun := ih hstep (by omega) (by rw [hrest]; omega) (by rw [hrest]; omega)
        rw [hrest, hlast] at hrun
        rw [storeLoop_next h hlt hc, hleft, List.take_succ_cons]
        exact hrun
    · have hdone := mt (filled_lt hspc).mpr hlt
      rw [storeLoop, if_neg hlt, show needed v.bpb data.length-cs.length = 0 by omega,
        List.take_zero]
      exact ⟨_, rfl⟩

end Storing

section Writing

variable (T : ℕ) (v : Volume) (dir : ℕ) (name data : List UInt8)

/-- What `write_file_in_dir` stores into: the volume, or the volume without the entry of the name
when that may be modified. -/
def Cleared (v1 : Volume) : Prop :=
  (v.findDirEntry dir name = some none ∧ v1 = v) ∨
    ∃ p, v.findDirEntry dir name = some (some p) ∧
      (v.loadEntry p).attributes &&& attrProtectModify = 0 ∧ Drops v v1 p

/-- The dropped entry lies in the volume, there is room for the bytes, and the entry of the file
can be linked in the volume that holds them. -/
def WriteFits : Prop := ∀ v1, Cleared v dir name v1 →
  (∀ p, v.findDirEntry dir name = some (some p) → p.1 < T) ∧
    Room T v1 (needed v.bpb data.length) ∧
    (needed v.bpb data.length ≤ (freeList v1).length →
      LinkFits T (filledWith v1 data
        ((freeList v1).take (needed v.bpb data.length))).flushFat dir)

variable {T v dir name data} {v1 : Volume}

theorem drops_unique {w w' : Volume} {p : Slot} (h : Drops v w p) (h' : Drops v w' p) : w = w' := by
  have hfat : w.fatTable = w'.fatTable := by
    funext x
    apply UInt16.toNat_inj.mp
    exact (h.fat x).trans (h'.fat x).symm
  have hbpb := h.bpb.trans h'.bpb.symm
  have hmounted := h.mounted.trans h'.mounted.symm
  have hdisk := h.disk.trans h'.disk.symm
  cases w
  cases w'
  simp_all

theorem dropOld_cleared : dropOld v dir name = some (some v1) ↔ Cleared v dir name v1 := by
  constructor
  · intro h
    cases hf : v.findDirEntry dir name with
    | none => simp [dropOld, hf] at h
    | some o =>
      cases o with
      | none =>
        rw [dropOld_absent hf] at h
        exact Or.inl ⟨hf, (Option.some.inj (Option.some.inj h)).symm⟩
      | some p =>
        by_cases hprot : (v.loadEntry p).attributes &&& attrProtectModify = 0
        · obtain ⟨u, hu, hd⟩ := dropOld_drops hf hprot
          rw [hu] at h
          rw [← Option.some.inj (Option.some.inj h)]
          exact Or.inr ⟨p, hf, hprot, hd⟩
        · rw [dropOld_protected hf hprot] at h
          cases h
  · rintro (⟨hf, rfl⟩ | ⟨p, hf, hprot, hd⟩)
    · exact dropOld_absent hf
    · obtain ⟨u, hu, hd'⟩ := dropOld_drops hf hprot
      rw [hu, drops_unique hd' hd]

/-- The entry is written when it is dropped. -/
theorem drop_inside : AllInside T v.bpb (dropEvents v dir name) ↔
    ∀ v1, Cleared v dir name v1 → ∀ p, v.findDirEntry dir name = some (some p) → p.1 < T := by
  rw [dropEvents]
  cases hf : v.findDirEntry dir name with
  | none => exact iff_of_true (allInside_nil _) fun v1 _ p hp => by cases hp
  | some o =>
    cases o with
    | none => exact iff_of_true (allInside_nil _) fun v1 _ p hp => by cases hp
    | some p =>
      dsimp only
      by_cases hprot : (v.loadEntry p).attributes &&& attrProtectModify = 0
      · obtain ⟨u, -, hd⟩ := dropOld_drops hf hprot
        rw [if_neg (not_not.mpr hprot)]
        constructor
        · intro h v1 _ q hq
          rw [← Option.some.inj (Option.some.inj hq)]
          exact (allInside_cons.mp h).1
        · intro h
          exact allInside_cons.mpr ⟨h u (Or.inr ⟨p, hf, hprot, hd⟩) p rfl, allInside_nil _⟩
      · rw [if_pos hprot]
        refine iff_of_true (allInside_nil _) fun v1 hv => ?_
        rw [← dropOld_cleared, dropOld_protected hf hprot] at hv
        cases hv

/-- Storing the bytes and linking the entry. -/
theorem stored_inside (dir : ℕ) (name data : List UInt8) (hb : Based T v.bpb)
    (hm : v.mounted = true) (now : Stamp) :
    AllInside T v.bpb (storeEvents data storeFuel v 0 0 0++
      match storeLoop data storeFuel v 0 0 0 with
      | some (some first, v2) =>
        written v2.flushWrites++linkEvents v2.flushFat dir name first data.length now
      | _ => []) ↔
    Room T v (needed v.bpb data.length) ∧ (needed v.bpb data.length ≤ (freeList v).length →
      LinkFits T (filledWith v data
        ((freeList v).take (needed v.bpb data.length))).flushFat dir) := by
  have hfuel : (freeList v).length < storeFuel :=
    lt_of_le_of_lt (freeList_length_le v) (by decide)
  have hnone : filled v.bpb data [] = 0 := by simp [filled]
  have hstore := store_inside data hb storeFuel (taken_nil v) (Nat.zero_le _) hfuel
  rw [hnone, ← room_iff hb] at hstore
  rw [allInside_append]
  apply and_congr hstore
  by_cases henough : needed v.bpb data.length ≤ (freeList v).length
  · obtain ⟨first, hrun⟩ := store_result data hb.cluster storeFuel (taken_nil v)
      (Nat.zero_le _) hfuel henough
    rw [hnone] at hrun
    change storeLoop data storeFuel v 0 0 0 = some (some first, filledWith v data
      ((freeList v).take (needed v.bpb data.length))) at hrun
    have hy := store_yields hrun
    have hbase : Based T (filledWith v data
        ((freeList v).take (needed v.bpb data.length))).flushFat.bpb := by
      rw [flushFat_bpb, hy.bpb]
      exact hb
    have hlink := link_inside dir hbase (hy.mounted.trans hm) name first data.length now
    rw [flushFat_bpb, hy.bpb] at hlink
    have hflush : AllInside T v.bpb (written (filledWith v data
        ((freeList v).take (needed v.bpb data.length))).flushWrites) :=
      allInside_written (flush_inside (by rw [hy.bpb]; exact hb.start))
    rw [hrun]
    dsimp only
    rw [allInside_append, hlink]
    exact ⟨fun h _ => h.2, fun h => ⟨hflush, h henough⟩⟩
  · obtain ⟨r, w, hrun, hfew⟩ := @storeLoop_takes v v data [] hb.cluster storeFuel (taken_nil v)
      (Nat.zero_le _) hfuel
    rw [hnone] at hrun
    change storeLoop data storeFuel v 0 0 0 = some (r, w) at hrun
    have hr : r = none := by
      rcases hfew with ⟨-, hr⟩ | ⟨cs, -, ht, hlen⟩
      · exact hr
      · have := taken_length ht
        omega
    rw [hrun, hr]
    exact iff_of_true (allInside_nil _) fun h => absurd h henough

theorem write_inside (hb : Based T v.bpb) (hm : v.mounted = true) (now : Stamp) :
    AllInside T v.bpb (writeEvents v dir name data now) ↔ WriteFits T v dir name data := by
  rw [writeEvents, if_neg (by simp [hm]), allInside_append, drop_inside]
  simp only [WriteFits, ← dropOld_cleared]
  cases hd : dropOld v dir name with
  | none => exact iff_of_true ⟨fun _ h => (by cases h), allInside_nil _⟩ fun _ h => by cases h
  | some r =>
    cases r with
    | none => exact iff_of_true ⟨fun _ h => (by cases h), allInside_nil _⟩ fun _ h => by cases h
    | some v1 =>
      have hy := drop_yields hd
      rw [Option.getD_some] at hy
      have hstored := stored_inside dir name data (by rw [hy.bpb]; exact hb)
        (hy.mounted.trans hm) now
      simp only [hy.bpb] at hstored
      simp only [Option.some.injEq, forall_eq']
      exact and_congr_right fun _ => hstored

end Writing

section Directories

variable (T : ℕ) (v : Volume) (dir : ℕ) (name : List UInt8)

/-- The table after the first free cluster was linked behind `prev`. -/
def linked (prev : ℕ) : Volume :=
  match freeList v with
  | [] => v
  | c::_ => (v.setFat c 0xFFFF).setFat prev c

/-- A new directory takes a cluster, and a full directory takes one before. -/
def MkdirFits : Prop := v.findDirEntry dir name = some none →
  (∀ p, FreeSlot v dir p → Room T v 1 ∧ (freeList v ≠ [] → p.1 < T)) ∧
    ∀ n, Full v dir n → Room T v 1 ∧ Room T (linked v (v.fat^[n-1] (dir%65536))) 1

variable {T v dir name}

/-- What `fat16_mkdir` does after it has a slot. -/
theorem newDir_events (dir : ℕ) (name : List UInt8) (hb : Based T v.bpb) (p : Slot)
    (now : Stamp) :
    AllInside T v.bpb (match v.allocCluster with
      | (0, _) => []
      | (c, v2) =>
        let entry := freshEntry attrDirectory name c 0 now
        .took c::updated v2 p entry::
          written ((v2.updateEntry p entry).flushWrites++newDirWrites v.bpb c dir)) ↔
    Room T v 1 ∧ (freeList v ≠ [] → p.1 < T) := by
  rcases alloc_cases v with ⟨hc, ha⟩ | ⟨k, rest, hc, ha⟩
  · rw [ha]
    exact iff_of_true (allInside_nil _) ⟨room_nil hc 1, fun h => absurd hc h⟩
  · rw [ha, room_cons hb hc]
    have htail : (∀ lba ∈ v.bpb.clusterLbas (k+1), lba < T) → AllInside T v.bpb
        (written (((v.setFat (k+1) 0xFFFF).updateEntry p
          (freshEntry attrDirectory name (k+1) 0 now)).flushWrites++
            newDirWrites v.bpb (k+1) dir)) := by
      intro h
      apply allInside_written
      intro w hw
      rcases List.mem_append.mp hw with hw | hw
      · exact flush_inside (v := (v.setFat (k+1) 0xFFFF).updateEntry p
          (freshEntry attrDirectory name (k+1) 0 now)) hb.start w hw
      · exact newDir_inside hb h dir w hw
    constructor
    · intro h
      obtain ⟨hin, h⟩ := allInside_cons.mp h
      exact ⟨hin, fun _ => (allInside_cons.mp h).1⟩
    · rintro ⟨hin, hp⟩
      refine allInside_cons.mpr ⟨hin, allInside_cons.mpr ⟨?_, htail hin⟩⟩
      exact hp (by rw [hc]; exact List.cons_ne_nil _ _)

theorem linked_room {w : Volume} {prev c : ℕ} {rest : List ℕ} (hc : freeList v = c::rest)
    (hbpb : w.bpb = v.bpb) (htable : w.fatTable = ((v.setFat c 0xFFFF).setFat prev c).fatTable) :
    Room T w 1 ↔ Room T (linked v prev) 1 := by
  have hfree : freeList w = freeList (linked v prev) := by
    rw [linked, hc]
    exact freeList_congr (v := (v.setFat c 0xFFFF).setFat prev c) hbpb fun x _ => by
      rw [Volume.fat, htable]
      rfl
  have hsame : (linked v prev).bpb = v.bpb := by
    rw [linked, hc]
    rfl
  rw [Room, Room, hfree, hbpb, hsame]

theorem mkdir_inside (hb : Based T v.bpb) (hm : v.mounted = true) (now : Stamp) :
    AllInside T v.bpb (mkdirEvents v dir name now) ↔ MkdirFits T v dir name := by
  rw [mkdirEvents, if_neg (by simp [hm]), MkdirFits]
  cases hf : v.findDirEntry dir name with
  | none => exact iff_of_true (allInside_nil _) fun h => by cases h
  | some o =>
    cases o with
    | some p => exact iff_of_true (allInside_nil _) fun h => by cases h
    | none =>
      dsimp only
      rw [forall_prop_of_true rfl, allInside_append, findFree_inside hb hm,
        forall_full (P := fun _ => Room T v 1),
        forall_full (P := fun prev => Room T v 1 ∧ Room T (linked v prev) 1)]
      simp only [freeSlot_iff]
      rw [(findFree_search hm dir).1]
      cases slotSearch v dir with
      | none =>
        refine iff_of_true ⟨fun _ h => (by cases h), ?_⟩
          ⟨fun _ h => (by cases h), fun _ h => by cases h⟩
        dsimp only
        split_ifs <;> exact allInside_nil _
      | some r =>
        cases r with
        | inl p =>
          simp only [Option.some.injEq, Sum.inl.injEq, forall_eq', reduceCtorEq, false_implies,
            implies_true, true_and, and_true]
          exact newDir_events dir name hb p now
        | inr prev =>
          simp only [Option.some.injEq, Sum.inr.injEq, forall_eq', reduceCtorEq, false_implies,
            implies_true, true_and]
          apply and_congr_right
          intro hroom
          rcases extendDir_slot (v := v) prev with ⟨hnil, he⟩ | ⟨c, rest, w, hc, he, hbpb, htable⟩
          · rw [he]
            refine iff_of_true (allInside_nil _) (room_nil ?_ 1)
            rw [linked, hnil]
            exact hnil
          · rw [he, ← linked_room hc hbpb htable]
            have hnew := newDir_events dir name (by rw [hbpb]; exact hb)
              (v.bpb.clusterToLba c, 0) now
            rw [hbpb] at hnew
            refine hnew.trans (and_iff_left fun _ => ?_)
            exact (room_cons hb hc).mp hroom _ (first_lba hb c)

end Directories

section Runs

variable {T : ℕ} {v : Volume}

/-- A renaming searches a slot when the old name is there and the new one is not. -/
def RenameFits (T : ℕ) (v : Volume) (oldDir : ℕ) (oldName : List UInt8) (newDir : ℕ)
    (newName : List UInt8) : Prop :=
  ∀ old, v.findDirEntry oldDir oldName = some (some old) →
    v.findDirEntry newDir newName = some none → ∀ n, Full v newDir n → Room T v 1

def CallFits (T : ℕ) (v : Volume) : Call → Prop
  | .writeFileInDir dir name data _ => WriteFits T v dir name data
  | .fat16Unlink _ _ => True
  | .fat16Mkdir dir name _ => MkdirFits T v dir name
  | .fat16Rename oldDir oldName newDir newName => RenameFits T v oldDir oldName newDir newName

/-- In every state of a run, for the call that is made there. -/
def Throughout (P : Volume → Call → Prop) : List Call → Volume → Prop
  | [], _ => True
  | c::cs, v => P v c ∧ ∀ ok w, c.run v = some (ok, w) → Throughout P cs w

theorem rename_inside (hb : Based T v.bpb) (hm : v.mounted = true) (oldDir : ℕ)
    (oldName : List UInt8) (newDir : ℕ) (newName : List UInt8) :
    AllInside T v.bpb (renameEvents v oldDir oldName newDir newName) ↔
      RenameFits T v oldDir oldName newDir newName := by
  rw [renameEvents, if_neg (by simp [hm]), RenameFits]
  cases v.findDirEntry oldDir oldName with
  | none => exact iff_of_true (allInside_nil _) fun _ h => by cases h
  | some o =>
    cases o with
    | none => exact iff_of_true (allInside_nil _) fun _ h => by cases h
    | some old =>
      cases v.findDirEntry newDir newName with
      | none => exact iff_of_true (allInside_nil _) fun _ _ h => by cases h
      | some r =>
        cases r with
        | some p => exact iff_of_true (allInside_nil _) fun _ _ h => by cases h
        | none =>
          simp only [Option.some.injEq, forall_eq', forall_prop_of_true]
          exact findFree_inside hb hm

/-- A call stays inside the volume exactly when it fits. -/
theorem call_inside (hb : Based T v.bpb) (hm : v.mounted = true) (c : Call) :
    AllInside T v.bpb (events v c) ↔ CallFits T v c := by
  cases c with
  | writeFileInDir dir name data now => exact write_inside hb hm now
  | fat16Unlink dir name => exact iff_of_true (allInside_nil _) trivial
  | fat16Mkdir dir name now => exact mkdir_inside hb hm now
  | fat16Rename oldDir oldName newDir newName =>
    exact rename_inside hb hm oldDir oldName newDir newName

/-- A mounted volume keeps its geometry in a run, so the calls decide one by one. -/
theorem throughout_inside (hb : Based T v.bpb) (hm : v.mounted = true) (cs : List Call) :
    Throughout (fun w c => AllInside T w.bpb (events w c)) cs v ↔
      Throughout (CallFits T) cs v := by
  induction cs generalizing v with
  | nil => exact Iff.rfl
  | cons c cs ih =>
    apply and_congr (call_inside hb hm c)
    apply forall_congr'
    intro ok
    apply forall₂_congr
    intro w hw
    obtain ⟨hbpb, hmounted⟩ := run_geometry hw
    exact ih (by rwa [hbpb]) (hmounted.trans hm)

theorem mounted_based {present buffer : Bool} {old : Volume}
    (h : mount present buffer old = some (true, v))
    (hstart : v.bpb.dataStartLba ≤ T) : Based T v.bpb ∧ v.mounted = true := by
  rw [mount_eq] at h
  split_ifs at h with hzero
  have hinit := Option.some.inj h
  have hok : (init present buffer old).1 = true := by rw [hinit]
  have hvolume := init_volume hok
  rw [hinit] at hzero hvolume
  have hspc : v.bpb.spc ≠ 0 := fun h0 => hzero ⟨rfl, h0⟩
  exact ⟨⟨by omega, hstart⟩, hvolume.2.1⟩

/-- On a volume that `init` accepts and that has a cluster, a run takes only clusters and writes
only sectors of the volume exactly when every call of it fits. -/
theorem run_inside_iff {present buffer : Bool} {old : Volume}
    (h : mount present buffer old = some (true, v))
    (hcluster : v.bpb.dataStartLba+v.bpb.spc ≤ totalSectors (old.disk.data 0)) (cs : List Call) :
    Throughout (fun w c => AllInside (totalSectors (old.disk.data 0)) w.bpb (events w c)) cs v ↔
      Throughout (CallFits (totalSectors (old.disk.data 0))) cs v := by
  obtain ⟨hb, hm⟩ := mounted_based h (Nat.le_of_add_right_le hcluster)
  exact throughout_inside hb hm cs

/-- The boot sector of `data.img`: 32768 sectors, four to a cluster, and two tables of 32. -/
def imageBoot : Sector := fun k =>
  if k = 12 then 2 else if k = 13 then 4 else if k = 14 then 4 else if k = 16 then 2
  else if k = 18 then 2 else if k = 20 then 0x80 else if k = 22 then 32 else 0

def imageDisk : Disk := ⟨32768, fun l => if l = 0 then imageBoot else zeroSector⟩

/-- The driver before it mounts the empty `data.img`. -/
def image : Volume := ⟨bpbOf zeroSector, false, fun _ => 0, imageDisk⟩

theorem image_formatted : Formatted imageDisk := by
  refine ⟨by decide, by decide, ?_, by decide, fun f _ s _ k _ => ?_⟩
  · simp [bytesPerSector, imageDisk, imageBoot, word16]
  · have hstart : (bpbOf (imageDisk.data 0)).fatStartLba = 4 := rfl
    rw [hstart]
    have hzero : ∀ l, l ≠ 0 → imageDisk.data l = zeroSector := fun l h => if_neg h
    rw [hzero _ (by omega), hzero _ (by omega)]

/-- It is mounted with the 8190 clusters of its table free; 8167 of them exist. -/
theorem image_mounted : ∃ v, mount true true image = some (true, v) ∧
    v.bpb = bpbOf imageBoot ∧ v.mounted = true ∧ v.disk = imageDisk ∧
    freeList v = List.range' 2 8190 := by
  obtain ⟨table, hinit, htable⟩ := init_spec (v := image) image_formatted
  have hzero : ∀ x < 8192, table x = 0 := by
    intro x hx
    have h := htable (x/256) (show x/256 < 32 by omega) (by omega) (x%256) (by omega)
    rw [Nat.div_add_mod'] at h
    rw [h]
    have hdata : image.disk.data ((bpbOf (image.disk.data 0)).fatStartLba+x/256) = zeroSector :=
      if_neg (show 4+x/256 ≠ 0 by omega)
    rw [hdata]
    rfl
  refine ⟨{ image with bpb := bpbOf imageBoot, fatTable := table, mounted := true }, ?_, rfl, rfl,
    rfl, ?_⟩
  · have hspc : (bpbOf imageBoot).spc ≠ 0 := by decide
    rw [mount_eq, hinit, if_neg fun h => hspc h.2]
    rfl
  · have htotal : (bpbOf imageBoot).total-2 = 8190 := by decide
    change List.filter _ (List.range' 2 ((bpbOf imageBoot).total-2)) = _
    rw [htotal]
    apply List.filter_eq_self.mpr
    intro x hx
    rw [List.mem_range'_1] at hx
    simp [Volume.fat, hzero x (by omega)]

theorem image_absent {v : Volume} (hb : v.bpb = bpbOf imageBoot) (hm : v.mounted = true)
    (hd : v.disk = imageDisk) (name : List UInt8) : v.findDirEntry 0 name = some none := by
  have hroot : v.bpb.rootLbas = 68::List.range' 69 31 := by
    rw [hb]
    decide
  have hprobe : v.probeSector name 68 = some none := by
    rw [Volume.probeSector, hd]
    rfl
  rw [Volume.findDirEntry, if_neg (by simp [hm]), if_pos rfl, hroot, List.findSome?_cons, hprobe]
  rfl

theorem mkdir_inside_image : ∃ v, mount true true image = some (true, v) ∧
    Throughout (fun w c => AllInside 32768 w.bpb (events w c)) [.fat16Mkdir 0 [0x41] ⟨0, 0⟩] v := by
  obtain ⟨v, hv, hb, hm, hd, hfree⟩ := image_mounted
  refine ⟨v, hv, (run_inside_iff hv (by rw [hb]; decide) _).mpr ⟨fun _ => ⟨fun p hp => ?_, ?_⟩,
    fun _ _ _ => trivial⟩⟩
  · have hbase : Based (totalSectors (image.disk.data 0)) v.bpb := by
      rw [hb]
      exact ⟨by decide, by decide⟩
    refine ⟨(room_iff hbase 1).mpr ?_, fun _ => ?_⟩
    · rw [hfree, hb]
      decide
    · have hlt := freeSlot_root hp
      rw [hb] at hlt
      exact lt_of_lt_of_le hlt (by decide)
  · intro n hn
    exact absurd rfl hn.1

/-- A file that needs one cluster more than the empty disk has is written past its end. -/
theorem image_overfull {v : Volume} (hb : v.bpb = bpbOf imageBoot) (hm : v.mounted = true)
    (hd : v.disk = imageDisk) (hfree : freeList v = List.range' 2 8190) {data : List UInt8}
    (hlen : data.length = 16728064) (now : Stamp) :
    ¬ AllInside 32768 v.bpb (writeEvents v 0 [0x41] data now) := by
  have hbase : Based 32768 v.bpb := by
    rw [hb]
    exact ⟨by decide, by decide⟩
  rw [write_inside hbase hm now]
  intro hfits
  have hneeded : needed v.bpb data.length = 8168 := by
    rw [hlen, hb]
    rfl
  have htaken : 8169 ∈ (freeList v).take 8168 := by
    rw [hfree, List.take_range'_of_length_ge (by decide), List.mem_range'_1]
    omega
  have hroom := (hfits v (Or.inl ⟨image_absent hb hm hd _, rfl⟩)).2.1
  rw [hneeded, room_iff hbase] at hroom
  have hlast := (exists_iff hbase (by decide) (by decide)).mp (hroom 8169 htaken)
  rw [hb] at hlast
  exact absurd hlast (by decide)

theorem large_file_outside : ∃ v, mount true true image = some (true, v) ∧
    v.bpb.dataStartLba+v.bpb.spc ≤ totalSectors (image.disk.data 0) ∧
    ¬ AllInside (totalSectors (image.disk.data 0)) v.bpb
      (events v (.writeFileInDir 0 [0x41] (List.replicate 16728064 0) ⟨0, 0⟩)) := by
  obtain ⟨v, hv, hb, hm, hd, hfree⟩ := image_mounted
  have hlen : (List.replicate 16728064 (0 : UInt8)).length = 16728064 := List.length_replicate
  have hover := image_overfull hb hm hd hfree hlen ⟨0, 0⟩
  exact ⟨v, hv, by rw [hb]; decide, hover⟩

end Runs

section Tables

/-- Whatever the table holds, the allocator stays inside the volume exactly when the table is no
longer than the volume. -/
theorem alloc_inside_iff {T : ℕ} {b : Bpb} (hb : Based T b) :
    (∀ v : Volume, v.bpb = b → ∀ c w, v.allocCluster = (c, w) → c ≠ 0 →
      ∀ lba ∈ b.clusterLbas c, lba < T) ↔ b.total ≤ totalClusters T b+2 := by
  constructor
  · intro h
    by_contra hlong
    let v : Volume := ⟨b, true, fun i => if i = b.total-1 then 0 else 1, ⟨0, fun _ => zeroSector⟩⟩
    have hfat : ∀ x, v.fat x = 0 ↔ x = b.total-1 := fun x => by
      change (if x = b.total-1 then (0 : UInt16) else 1).toNat = 0 ↔ _
      split_ifs with hx <;> simp [hx]
    have hlast : b.total-1 ∈ freeList v :=
      mem_freeList.mpr ⟨⟨by omega, show b.total-1 < b.total by omega⟩, (hfat _).mpr rfl⟩
    rcases alloc_cases v with ⟨hnil, -⟩ | ⟨k, rest, hc, ha⟩
    · rw [hnil] at hlast
      cases hlast
    · have hk : k+1 ∈ freeList v := by
        rw [hc]
        exact List.mem_cons_self
      obtain ⟨hr, h0⟩ := mem_freeList.mp hk
      have hin := h v rfl _ _ ha (Nat.succ_ne_zero k)
      rw [exists_iff hb hr.1 (lt_wide b hr.2), (hfat _).mp h0] at hin
      omega
  · rintro hshort v rfl c w ha hc
    rcases alloc_cases v with ⟨-, he⟩ | ⟨k, rest, hfree, he⟩
    · rw [ha] at he
      exact absurd (Prod.mk.inj he).1 hc
    · rw [ha] at he
      obtain rfl := (Prod.mk.inj he).1
      have hk := (mem_freeList.mp (by rw [hfree]; exact List.mem_cons_self)).1
      rw [exists_iff hb hk.1 (lt_wide _ hk.2)]
      exact lt_of_lt_of_le hk.2 hshort

end Tables

end Vlsmc.VolumeEnds
