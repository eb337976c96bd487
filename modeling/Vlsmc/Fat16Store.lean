import Vlsmc.Fat16Growth

/-!
# Storing the contents of a file

The cluster loop of `write_file_in_dir` takes free clusters, links them and
fills their sectors in order. The invariant `Stored` relates the volume inside
the loop to the volume before it; no counter of the loop wraps around.
-/

set_option autoImplicit false

namespace Vlsmc.Fat16Store
open Vlsmc.Fat16Layout Vlsmc.Fat16Volume Vlsmc.Fat16Files Vlsmc.Fat16Geometry
open Vlsmc.Fat16Chains Vlsmc.Fat16Directory Vlsmc.Fat16Soundness Vlsmc.Fat16Growth
open Vlsmc.SuccessorChain
open Vlsmc.Words

/-- What sector `k` of a file holds. -/
def fileBlock (data : List UInt8) (k : ℕ) : Sector :=
  block data (512*k) (min 512 (data.length-512*k))

/-- The sector loop continues a file of which `K+s` sectors are written. -/
theorem fillSectors_spec (data : List UInt8) (lba K n s : ℕ) (d : Disk) (written : ℕ)
    (hw : written = min data.length (512*(K+s))) (hsz : lba+s+n ≤ d.size)
    (hl : lba+s+n < 4294967296) (hk : 512*(K+s+n) < 4294967296) :
    ∃ d', fillSectors data lba n s d written = (d', min data.length (512*(K+s+n))) ∧
      d'.size = d.size ∧
      (∀ l, l < lba+s ∨ lba+s+n ≤ l → d'.data l = d.data l) ∧
      ∀ j < n, 512*(K+s+j) < data.length → d'.data (lba+s+j) = fileBlock data (K+s+j) := by
  induction n generalizing s d written with
  | zero => exact ⟨d, by rw [fillSectors, hw, Nat.add_zero], rfl, fun _ _ => rfl, fun _ h => by omega⟩
  | succ n ih =>
    unfold fillSectors
    by_cases hlt : written < data.length
    · have hpos : written = 512*(K+s) := by omega
      have hu1 : u32 (written+512) = written+512 := by
        unfold u32
        omega
      have hcount : (if data.length < u32 (written+512) then data.length-written else 512) =
          min 512 (data.length-512*(K+s)) := by
        rw [hu1, hpos]
        split_ifs <;> omega
      have hu2 : u32 (written+min 512 (data.length-512*(K+s))) =
          min data.length (512*(K+(s+1))) := by
        unfold u32
        omega
      have hu3 : u32 (lba+s) = lba+s := by
        unfold u32
        omega
      simp only [if_pos hlt, hcount, hu2, hu3]
      obtain ⟨d', hd', hsize, hframe, hfill⟩ := ih (s+1)
        (d.write (lba+s) (block data written (min 512 (data.length-512*(K+s)))))
        _ rfl (by rw [write_size]; omega) (by omega) (by omega)
      refine ⟨d', ?_, by rw [hsize, write_size], fun l h => ?_, fun j hj hlen => ?_⟩
      · rw [hd', show K+(s+1)+n = K+s+(n+1) by omega]
      · rw [hframe l (by omega), write_other _ _ _ _ (by omega)]
      · cases j with
        | zero =>
          rw [hframe _ (by omega), write_data _ _ _ (by omega), if_pos (by omega), hpos]
          rfl
        | succ j =>
          rw [show lba+s+(j+1) = lba+(s+1)+j by omega, show K+s+(j+1) = K+(s+1)+j by omega]
          exact hfill j (by omega) (by
            rw [show K+(s+1)+j = K+s+(j+1) by omega]
            exact hlen)
    · refine ⟨d, ?_, rfl, fun _ _ => rfl, fun j hj hlen => by omega⟩
      rw [if_neg hlt]
      congr 1
      omega

/-- Inside the loop: `u` was reached from `v` by storing into the clusters `cs`. -/
structure Stored (v u : Volume) (data : List UInt8) (cs : List ℕ) : Prop where
  bpb : u.bpb = v.bpb
  mounted : u.mounted = v.mounted
  size : u.disk.size = v.disk.size
  range : ∀ c ∈ cs, InRange v.bpb c
  free : ∀ c ∈ cs, v.fat c = 0
  chain : ∀ c t, cs = c::t → FatChain u c cs
  table : ∀ x, x ∉ cs → u.fat x = v.fat x
  frame : ∀ lba, lba ∉ chainLbas v.bpb cs → u.disk.data lba = v.disk.data lba
  content : ∀ k lba, (chainLbas v.bpb cs)[k]? = some lba → 512*k < data.length →
    u.disk.data lba = fileBlock data k

theorem fat_disk (v : Volume) (d : Disk) : ({ v with disk := d } : Volume).fat = v.fat := rfl

section Stored

variable {v u : Volume} {data : List UInt8} {cs : List ℕ}

theorem stored_nil (v : Volume) (data : List UInt8) : Stored v v data [] where
  bpb := rfl
  mounted := rfl
  size := rfl
  range := by simp
  free := by simp
  chain := by simp
  table := fun _ _ => rfl
  frame := fun _ _ => rfl
  content := by simp [chainLbas]

theorem stored_fat_ne_zero (h : Stored v u data cs) : ∀ c ∈ cs, u.fat c ≠ 0 := by
  intro c hc
  cases cs with
  | nil => simp at hc
  | cons a t => exact fatChain_fat_ne_zero (h.chain a t rfl) c hc

theorem stored_nodup (h : Stored v u data cs) : cs.Nodup := by
  cases cs with
  | nil => simp
  | cons a t => exact fatChain_nodup (h.chain a t rfl)

theorem stored_length (h : Stored v u data cs) : cs.length ≤ 32766 := by
  have h1 := range_length v.bpb cs (stored_nodup h) h.range
  have h2 := total_le v.bpb
  omega

/-- Sectors of the clusters that were free are the only ones written. -/
theorem stored_outside (h : Stored v u data cs) {x lba : ℕ} (hx : InRange v.bpb x)
    (hne : v.fat x ≠ 0) (hl : lba ∈ v.bpb.clusterLbas x) : lba ∉ chainLbas v.bpb cs := by
  intro hm
  obtain ⟨c, hc, hlc⟩ := List.mem_flatMap.mp hm
  have hr := h.range c hc
  have hxc : x ≠ c := fun he => hne (he ▸ h.free c hc)
  exact clusterLbas_disjoint v.bpb hx.1 hx.2 hr.1 hr.2 hxc hl hlc

theorem stored_root (h : Stored v u data cs) {lba : ℕ} (hl : lba ∈ v.bpb.rootLbas) :
    lba ∉ chainLbas v.bpb cs := by
  intro hm
  obtain ⟨c, hc, hlc⟩ := List.mem_flatMap.mp hm
  exact root_not_cluster v.bpb (h.range c hc).1 (h.range c hc).2 hlc hl

theorem stored_sameTree (h : Stored v u data cs) : SameTree v u :=
  sameTree_of_free h.bpb (fun x hx => h.table x fun hm => hx (h.free x hm))
    (fun _ hx hne _ hl => h.frame _ (stored_outside h hx hne hl))
    fun _ hl => h.frame _ (stored_root h hl)

theorem stored_grows (hs : Sound v) (h : Stored v u data cs) : Grows v u :=
  grows_of_free hs h.bpb (fun x hx => h.table x fun hm => hx (h.free x hm))
    (fun _ hx hne _ hl => h.frame _ (stored_outside h hx hne hl))
    fun _ hl => h.frame _ (stored_root h hl)

theorem stored_loose (hs : Sound v) (h : Stored v u data cs) {c : ℕ} {t : List ℕ}
    (hcs : cs = c::t) : Loose u c cs := by
  refine ⟨h.chain c t hcs, fun x hx ho => ?_⟩
  exact owned_fat ((sameTree_owned hs (stored_sameTree h) x).mp ho) (h.free x hx)

/-- The table after the cluster `c` was taken and linked behind `cs`. -/
def linkTo (u : Volume) (cs : List ℕ) (c : ℕ) : Volume :=
  if cs.getLastD 0 = 0 then u.setFat c 0xFFFF
  else (u.setFat c 0xFFFF).setFat (cs.getLastD 0) c

theorem linkTo_frame (u : Volume) (cs : List ℕ) (c : ℕ) : (linkTo u cs c).bpb = u.bpb ∧
    (linkTo u cs c).mounted = u.mounted ∧ (linkTo u cs c).disk = u.disk := by
  unfold linkTo
  split <;> exact ⟨rfl, rfl, rfl⟩

theorem stored_link (h : Stored v u data cs) {c : ℕ} (hc : InRange v.bpb c) (h0 : u.fat c = 0)
    {w : Volume} (hb : w.bpb = v.bpb) (hw : w.fat = (linkTo u cs c).fat) :
    (∀ a t, cs++[c] = a::t → FatChain w a (cs++[c])) ∧
      ∀ x, x ∉ cs++[c] → w.fat x = v.fat x := by
  have hcn : c ∉ cs := fun hm => stored_fat_ne_zero h c hm h0
  have hlt : c < 65536 := by
    have h1 := hc.2
    have h2 := total_le v.bpb
    omega
  cases cs with
  | nil =>
    have hfat : ∀ x, w.fat x = if x = c then 0xFFFF else u.fat x := fun x => by
      rw [hw, linkTo, List.getLastD_nil, if_pos rfl, setFat_fat _ _ _ _ (by decide)]
    refine ⟨?_, fun x hx => ?_⟩
    · rintro a t hat
      obtain ⟨rfl, rfl⟩ : c = a ∧ [] = t := by simpa using hat
      refine ⟨rfl, by rwa [hb], ?_⟩
      rw [hfat, if_pos rfl]
      exact (by decide : 0xFFF8 ≤ 0xFFFF)
    · rw [hfat, if_neg (by simpa using hx)]
      exact h.table x (by simp)
  | cons a t =>
    have hmem : (a::t).getLast (by simp) ∈ a::t := List.getLast_mem _
    have hge := (h.range _ hmem).1
    have hlast : (a::t).getLastD 0 = (a::t).getLast (by simp) := by
      simp [List.getLastD_eq_getLast?, List.getLast?_eq_getLast_of_ne_nil]
    have hlc : (a::t).getLast (by simp) ≠ c := fun he => hcn (he ▸ hmem)
    have hfat : ∀ x, w.fat x = if x = (a::t).getLast (by simp) then c else
        if x = c then 0xFFFF else u.fat x := fun x => by
      rw [hw, linkTo, hlast, if_neg (by omega), setFat_fat _ _ _ _ hlt, setFat_fat _ _ _ _ (by decide)]
    refine ⟨?_, fun x hx => ?_⟩
    · rintro a' t' hat
      obtain ⟨rfl, -⟩ := List.cons.inj hat
      refine extend_chain (h.chain a t rfl) (by rwa [h.bpb]) h0 (hb.trans h.bpb.symm) ?_ ?_ ?_
      · rw [hfat, if_pos rfl]
      · rw [hfat, if_neg (Ne.symm hlc), if_pos rfl]
      · intro x h1 h2
        rw [hfat, if_neg h1, if_neg h2]
    · have hx1 : x ≠ (a::t).getLast (by simp) := fun he =>
        hx (List.mem_append_left _ (he ▸ hmem))
      have hx2 : x ≠ c := fun he => hx (by simp [he])
      rw [hfat, if_neg hx1, if_neg hx2]
      exact h.table x fun hm => hx (List.mem_append_left _ hm)

/-- The bytes that have been written when the clusters `cs` are filled. -/
def filled (b : Bpb) (data : List UInt8) (cs : List ℕ) : ℕ :=
  min data.length (512*(cs.length*b.spc))

theorem chainLbas_index (b : Bpb) (cs : List ℕ) {c k lba : ℕ} (hc : InRange b c)
    (h : (chainLbas b (cs++[c]))[k]? = some lba) :
    (k < cs.length*b.spc ∧ (chainLbas b cs)[k]? = some lba) ∨
    ∃ j < b.spc, k = cs.length*b.spc+j ∧ lba = b.clusterToLba c+j := by
  rw [chainLbas_append] at h
  by_cases hk : k < cs.length*b.spc
  · rw [List.getElem?_append_left (by rwa [chainLbas_length])] at h
    exact Or.inl ⟨hk, h⟩
  · rw [List.getElem?_append_right (by rw [chainLbas_length]; omega), chainLbas_length] at h
    simp only [chainLbas, List.flatMap_cons, List.flatMap_nil, List.append_nil] at h
    rw [clusterLbas_eq b hc.1 hc.2, List.getElem?_map] at h
    obtain ⟨j, hj, hlba⟩ := Option.map_eq_some_iff.mp h
    obtain ⟨hjr, hjk⟩ := List.getElem?_eq_some_iff.mp hj
    rw [List.length_range] at hjr
    rw [List.getElem_range] at hjk
    refine Or.inr ⟨j, by omega, by omega, ?_⟩
    rw [clusterToLba_eq b hc.1 hc.2]
    exact hlba.symm

/-- Filling one cluster, when the file already has `n` clusters. -/
theorem fillCluster_spec (data : List UInt8) (hw : Working v) {c n : ℕ} (hc : InRange v.bpb c) {d : Disk}
    (hd : d.size = v.disk.size) (hn : n < 32766) :
    ∃ d', fillSectors data (v.bpb.clusterToLba c) v.bpb.spc 0 d
        (min data.length (512*(n*v.bpb.spc))) = (d', min data.length (512*((n+1)*v.bpb.spc))) ∧
      d'.size = d.size ∧ (∀ lba, lba ∉ v.bpb.clusterLbas c → d'.data lba = d.data lba) ∧
      ∀ j < v.bpb.spc, 512*(n*v.bpb.spc+j) < data.length →
        d'.data (v.bpb.clusterToLba c+j) = fileBlock data (n*v.bpb.spc+j) := by
  have hlba := clusterToLba_eq v.bpb hc.1 hc.2
  have hmem : ∀ lba, lba ∈ v.bpb.clusterLbas c ↔
      v.bpb.clusterToLba c ≤ lba ∧ lba < v.bpb.clusterToLba c+v.bpb.spc := fun lba => by
    rw [hlba]
    exact mem_clusterLbas v.bpb hc.1 hc.2
  have hoff := offset_le v.bpb hc.2
  have hstart := dataStart_lt v.bpb
  have hspc := spc_lt v.bpb
  have hpos := hw.cluster
  have hlast : v.bpb.clusterToLba c+v.bpb.spc-1 < d.size := by
    rw [hd]
    refine lt_of_lt_of_le (cluster_lt_dataEnd v.bpb hc.1 hc.2 ((hmem _).mpr ?_)) hw.accepts
    constructor <;> omega
  have hmul : (n+1)*v.bpb.spc ≤ 32766*255 := Nat.mul_le_mul (by omega) (by omega)
  have hexp : (n+1)*v.bpb.spc = n*v.bpb.spc+v.bpb.spc := Nat.succ_mul _ _
  rw [hexp] at hmul ⊢
  clear hexp
  generalize n*v.bpb.spc = K at hmul ⊢
  generalize v.bpb.clusterToLba c = base at *
  generalize v.bpb.spc = m at *
  obtain ⟨d', h1, h2, h3, h4⟩ := fillSectors_spec data base K m 0 d (min data.length (512*K))
    (by rw [Nat.add_zero]) (by omega) (by omega) (by omega)
  rw [Nat.add_zero] at h1
  refine ⟨d', h1, h2, fun lba hl => h3 lba ?_, fun j hj hl => ?_⟩
  · rw [hmem] at hl
    omega
  · have hfill := h4 j hj (by rwa [Nat.add_zero])
    rwa [Nat.add_zero, Nat.add_zero] at hfill

/-- One round of the loop. -/
theorem stored_step (hw : Working v) (h : Stored v u data cs) {c : ℕ} (hc : InRange v.bpb c)
    (h0 : u.fat c = 0) :
    ∃ d', fillSectors data (v.bpb.clusterToLba c) v.bpb.spc 0 u.disk (filled v.bpb data cs) =
        (d', filled v.bpb data (cs++[c])) ∧
      Stored v { linkTo u cs c with disk := d' } data (cs++[c]) := by
  have hcn : c ∉ cs := fun hm => stored_fat_ne_zero h c hm h0
  have hrange : ∀ x ∈ cs++[c], InRange v.bpb x := by
    intro x hx
    rcases List.mem_append.mp hx with hx | hx
    · exact h.range x hx
    · rwa [List.mem_singleton.mp hx]
  have hnd : (cs++[c]).Nodup := List.nodup_append.mpr
    ⟨stored_nodup h, by simp, fun a ha b hb heq => hcn (List.mem_singleton.mp hb ▸ heq ▸ ha)⟩
  have hlen : cs.length < 32766 := by
    have h1 := range_length v.bpb _ hnd hrange
    have h2 := total_le v.bpb
    rw [List.length_append, List.length_singleton] at h1
    omega
  obtain ⟨d', hd', hsize, hframe, hfill⟩ := fillCluster_spec data hw hc h.size hlen
  obtain ⟨lb, lm, -⟩ := linkTo_frame u cs c
  obtain ⟨hchain, htable⟩ := stored_link (w := { linkTo u cs c with disk := d' }) h hc h0
    (lb.trans h.bpb) (fat_disk _ _)
  have hfree : v.fat c = 0 := (h.table c hcn).symm.trans h0
  refine ⟨d', ?_, ⟨lb.trans h.bpb, lm.trans h.mounted, hsize.trans h.size, hrange, ?_, hchain,
    htable, ?_, ?_⟩⟩
  · rw [filled, filled, List.length_append, List.length_singleton, hd']
  · intro x hx
    rcases List.mem_append.mp hx with hx | hx
    · exact h.free x hx
    · rwa [List.mem_singleton.mp hx]
  · intro lba hl
    rw [chainLbas_append, List.mem_append, not_or] at hl
    rw [← h.frame lba hl.1]
    exact hframe lba (by simpa [chainLbas] using hl.2)
  · intro k lba hk hlen
    rcases chainLbas_index v.bpb cs hc hk with ⟨hkc, hold⟩ | ⟨j, hj, rfl, rfl⟩
    · rw [← h.content k lba hold hlen]
      refine hframe lba fun hm => ?_
      obtain ⟨x, hx, hlx⟩ := List.mem_flatMap.mp (List.mem_of_getElem? hold)
      have hxr := h.range x hx
      have hxc : x ≠ c := fun he => hcn (he ▸ hx)
      exact clusterLbas_disjoint v.bpb hxr.1 hxr.2 hc.1 hc.2 hxc hlx hm
    · exact hfill j hj hlen

/-- When the disk is full, the clusters taken so far are given back. -/
theorem stored_undo (h : Stored v u data cs) :
    ∃ w, (if cs.headD 0 = 0 then some u else u.freeChain (cs.headD 0)) = some w ∧
      w.bpb = v.bpb ∧ w.disk = u.disk ∧ w.mounted = v.mounted ∧ ∀ x, w.fat x = v.fat x := by
  cases cs with
  | nil => exact ⟨u, rfl, h.bpb, rfl, h.mounted, fun x => h.table x (by simp)⟩
  | cons a t =>
    have ha := (h.range a (by simp)).1
    obtain ⟨w, hw, hb, hd, hm, hfat⟩ := freeChain_spec u a (a::t) (h.chain a t rfl)
    refine ⟨w, ?_, hb.trans h.bpb, hd, hm.trans h.mounted, fun x => ?_⟩
    · rw [List.headD_cons, if_neg (by omega), hw]
    · rw [hfat]
      split_ifs with hx
      · exact (h.free x hx).symm
      · exact h.table x hx

theorem stored_full (hw : Working v) (hs : Sound v) (h : Stored v u data cs) {w : Volume}
    (hb : w.bpb = v.bpb) (hd : w.disk = u.disk) (hm : w.mounted = v.mounted)
    (hfat : ∀ x, w.fat x = v.fat x) :
    Working w.flushFat ∧ Flushed w.flushFat ∧ Grows v w.flushFat := by
  have hww : Working w := working_congr hw hb hm (by rw [hd, h.size])
  have hg : Grows v w := by
    refine grows_of_free hs hb (fun x _ => hfat x) (fun x hx hne lba hl => ?_) fun lba hl => ?_
    · rw [hd]
      exact h.frame _ (stored_outside h hx hne hl)
    · rw [hd]
      exact h.frame _ (stored_root h hl)
  exact ⟨working_congr hww rfl rfl (flushFat_size w), flushFat_flushed w hww,
    grows_trans hg (grows_flush hg.sound)⟩

theorem storeLoop_round (fuel : ℕ) {written c : ℕ} (hlt : written < data.length)
    (ha : u.allocCluster = (c, u.setFat c 0xFFFF)) (hc : c ≠ 0) {r : Disk × ℕ}
    (hr : fillSectors data (u.bpb.clusterToLba c) u.bpb.spc 0 u.disk written = r) :
    storeLoop data (fuel+1) u (cs.headD 0) (cs.getLastD 0) written =
      storeLoop data fuel { linkTo u cs c with disk := r.1 }
        (if cs.headD 0 = 0 then c else cs.headD 0) c r.2 := by
  obtain ⟨k, rfl⟩ : ∃ k, c = k+1 := ⟨c-1, by omega⟩
  rw [storeLoop, if_pos hlt, ha]
  simp only
  have hlink : (if cs.getLastD 0 = 0 then u.setFat (k+1) 0xFFFF
      else (u.setFat (k+1) 0xFFFF).setFat (cs.getLastD 0) (k+1)) = linkTo u cs (k+1) := rfl
  rw [hlink, (linkTo_frame u cs (k+1)).2.2, hr]

theorem headD_append (h : Stored v u data cs) (c : ℕ) :
    (if cs.headD 0 = 0 then c else cs.headD 0) = (cs++[c]).headD 0 := by
  cases cs with
  | nil => rfl
  | cons a t =>
    have := (h.range a (by simp)).1
    rw [List.cons_append, List.headD_cons, List.headD_cons, if_neg (by omega)]

/-- The number of clusters that are marked as free. -/
def freeClusters (v : Volume) : ℕ :=
  ((List.range' 2 (v.bpb.total-2)).filter fun c => v.fat c = 0).length

theorem mem_free {c : ℕ} : c ∈ ((List.range' 2 (v.bpb.total-2)).filter fun c => v.fat c = 0) ↔
    InRange v.bpb c ∧ v.fat c = 0 := by
  rw [List.mem_filter, List.mem_range'_1, decide_eq_true_eq, InRange]
  omega

/-- The stored clusters were free. -/
theorem stored_length_free (h : Stored v u data cs) : cs.length ≤ freeClusters v :=
  (List.subperm_of_subset (stored_nodup h) fun c hc =>
    mem_free.mpr ⟨h.range c hc, h.free c hc⟩).length_le

/-- When no cluster is free any more, all clusters that were free are stored to. -/
theorem free_length_stored (h : Stored v u data cs) (hfull : ∀ c, InRange v.bpb c → u.fat c ≠ 0) :
    freeClusters v ≤ cs.length := by
  refine (List.subperm_of_subset (List.Nodup.filter _ List.nodup_range') fun c hc => ?_).length_le
  obtain ⟨hr, h0⟩ := mem_free.mp hc
  by_contra hcs
  exact hfull c hr ((h.table c hcs).trans h0)

/-- How the loop ends: all of the data is stored, or no cluster is free and the clusters taken
so far are given back. -/
theorem storeLoop_cases (hw : Working v) (fuel : ℕ) (h : Stored v u data cs)
    (hfuel : 32766 < fuel+cs.length) :
    ∃ r w, storeLoop data fuel u (cs.headD 0) (cs.getLastD 0) (filled v.bpb data cs) =
        some (r, w) ∧
      ((r = none ∧ ∃ (cs' : List ℕ) (u' w' : Volume), Stored v u' data cs' ∧ w = w'.flushFat ∧ w'.bpb = v.bpb ∧
          w'.disk = u'.disk ∧ w'.mounted = v.mounted ∧ (∀ x, w'.fat x = v.fat x) ∧
          (∀ c, InRange v.bpb c → u'.fat c ≠ 0) ∧ filled v.bpb data cs' < data.length) ∨
        ∃ cs', r = some (cs'.headD 0) ∧ Stored v w data cs' ∧
          data.length ≤ 512*(cs'.length*v.bpb.spc)) := by
  induction fuel generalizing u cs with
  | zero =>
    have := stored_length h
    omega
  | succ fuel ih =>
    by_cases hlt : filled v.bpb data cs < data.length
    · rcases allocCluster_cases u with ⟨ha, hnone⟩ | ⟨c, ha, hc, h0⟩
      · obtain ⟨w, hundo, hb, hd, hm, hfat⟩ := stored_undo h
        refine ⟨none, w.flushFat, ?_, Or.inl ⟨rfl, cs, u, w, h, rfl, hb, hd, hm, hfat,
          h.bpb ▸ hnone, hlt⟩⟩
        rw [storeLoop, if_pos hlt, ha]
        split_ifs at hundo with hfirst
        · cases hundo
          exact if_pos hfirst
        · exact (if_neg hfirst).trans (by rw [hundo]; rfl)
      · rw [h.bpb] at hc
        have hc2 := hc.1
        obtain ⟨d', hd', hstep⟩ := stored_step hw h hc h0
        rw [storeLoop_round fuel hlt ha (by omega) (by rw [h.bpb, hd']), headD_append h c]
        have hlast : (cs++[c]).getLastD 0 = c := by simp
        have := ih hstep (by simp; omega)
        rwa [hlast] at this
    · refine ⟨some (cs.headD 0), u, ?_, Or.inr ⟨cs, rfl, h, ?_⟩⟩
      · rw [storeLoop, if_neg hlt]
      · unfold filled at hlt
        omega

/-- The loop ends: it stores all of the data, or it finds the disk full. -/
theorem storeLoop_spec (hw : Working v) (hs : Sound v) (fuel : ℕ) (h : Stored v u data cs)
    (hfuel : 32766 < fuel+cs.length) :
    ∃ r w, storeLoop data fuel u (cs.headD 0) (cs.getLastD 0) (filled v.bpb data cs) =
        some (r, w) ∧
      ((r = none ∧ Working w ∧ Flushed w ∧ Grows v w ∧ (∀ x, w.fat x = v.fat x) ∧
          512*(freeClusters v*v.bpb.spc) < data.length) ∨
        ∃ cs', r = some (cs'.headD 0) ∧ Stored v w data cs' ∧
          data.length ≤ 512*(cs'.length*v.bpb.spc)) := by
  obtain ⟨r, w, hr, ⟨hnone, cs', u', w', hst, rfl, hb, hd, hm, hfat, hfull, hlt⟩ | hstored⟩ :=
    storeLoop_cases hw fuel h hfuel
  · obtain ⟨hww, hfw, hg⟩ := stored_full hw hs hst hb hd hm hfat
    have hfree : freeClusters v*v.bpb.spc ≤ cs'.length*v.bpb.spc :=
      Nat.mul_le_mul_right _ (free_length_stored hst hfull)
    refine ⟨r, w'.flushFat, hr, Or.inl ⟨hnone, hww, hfw, hg, hfat, ?_⟩⟩
    unfold filled at hlt
    omega
  · exact ⟨r, w, hr, Or.inr hstored⟩

end Stored

end Vlsmc.Fat16Store
