import Vlsmc.ChainCalls
import Vlsmc.DirectoryEdits

/-!
# The order in which clusters are taken

Whatever the table holds and however long the disk is: the allocator takes free clusters in the
order of their numbers, a file takes as many as its bytes need, and `free_chain` ends.
-/

set_option autoImplicit false

namespace Vlsmc.FirstFit
open Vlsmc.Fat16Layout Vlsmc.Fat16Volume Vlsmc.Fat16Files Vlsmc.Fat16Geometry Vlsmc.Fat16Chains
open Vlsmc.Fat16Directory Vlsmc.Fat16Store Vlsmc.DirectoryEdits Vlsmc.DirectoryScans Vlsmc.ChainCalls
open Vlsmc.Words

section Free

variable {v w : Volume}

/-- The free clusters, in the order in which they are taken. -/
def freeList (v : Volume) : List ℕ :=
  (List.range' 2 (v.bpb.total-2)).filter fun c => v.fat c = 0

theorem mem_freeList {c : ℕ} : c ∈ freeList v ↔ InRange v.bpb c ∧ v.fat c = 0 := mem_free

theorem freeList_nodup (v : Volume) : (freeList v).Nodup := List.Nodup.filter _ List.nodup_range'

theorem freeList_congr (hb : w.bpb = v.bpb)
    (h : ∀ c, InRange v.bpb c → (w.fat c = 0 ↔ v.fat c = 0)) : freeList w = freeList v := by
  rw [freeList, hb]
  apply List.filter_congr
  intro c hc
  rw [List.mem_range'_1] at hc
  exact decide_eq_decide.mpr (h c ⟨hc.1, by omega⟩)

/-- Taking the first free cluster leaves the others. -/
theorem freeList_tail {c : ℕ} {cs : List ℕ} (h : freeList v = c::cs) (hb : w.bpb = v.bpb)
    (hfat : ∀ x, w.fat x = 0 ↔ x ≠ c ∧ v.fat x = 0) : freeList w = cs := by
  have hw : freeList w = (freeList v).filter fun x => x ≠ c := by
    rw [freeList, freeList, hb, List.filter_filter]
    apply List.filter_congr
    intro x _
    rw [decide_eq_decide.mpr (hfat x), Bool.decide_and]
  have hnd := freeList_nodup v
  rw [h, List.nodup_cons] at hnd
  rw [hw, h, List.filter_cons_of_neg (by simp)]
  exact List.filter_eq_self.mpr fun x hx => by
    simpa using fun he : x = c => hnd.1 (he ▸ hx)

theorem allocCluster_head (v : Volume) : v.allocCluster =
    match freeList v with
    | [] => (0, v)
    | c::_ => (c, v.setFat c 0xFFFF) := by
  rw [Volume.allocCluster, ← List.head?_filter, freeList]
  generalize List.filter _ _ = cs
  cases cs <;> rfl

/-- Cluster numbers are not zero, the answer when no cluster is free. -/
theorem alloc_cases (v : Volume) : (freeList v = [] ∧ v.allocCluster = (0, v)) ∨
    ∃ k rest, freeList v = (k+1)::rest ∧ v.allocCluster = (k+1, v.setFat (k+1) 0xFFFF) := by
  rw [allocCluster_head]
  cases hc : freeList v with
  | nil => exact Or.inl ⟨rfl, rfl⟩
  | cons c rest =>
    have hpos : 2 ≤ c := (mem_freeList.mp (by rw [hc]; exact List.mem_cons_self)).1.1
    obtain ⟨c, rfl⟩ : ∃ k, c = k+1 := ⟨c-1, by omega⟩
    exact Or.inr ⟨c, rest, rfl, rfl⟩

theorem alloc_first {v : Volume} {c : ℕ} {rest : List ℕ} (h : freeList v = c::rest) :
    ∃ k, c = k+1 ∧ v.allocCluster = (k+1, v.setFat (k+1) 0xFFFF) := by
  rcases alloc_cases v with ⟨hnil, -⟩ | ⟨k, t, hk, halloc⟩
  · rw [h] at hnil
    cases hnil
  · exact ⟨k, (List.cons.inj (h.symm.trans hk)).1, halloc⟩

end Free

section Chains

variable {v w : Volume} {c : ℕ}

/-- What `free_chain` clears are cells of the chain. -/
theorem chainFrom_orbit {fuel x : ℕ} (h : x ∈ chainFrom fuel v c) :
    ∃ n, x = v.fat^[n] c ∧ ∀ k ≤ n, inChain (v.fat^[k] c) = true := by
  induction fuel generalizing v c with
  | zero => cases h
  | succ fuel ih =>
    rw [chainFrom_succ] at h
    split_ifs at h with hc
    · rcases List.mem_cons.mp h with rfl | h
      · refine ⟨0, rfl, fun k hk => ?_⟩
        obtain rfl : k = 0 := by omega
        exact hc
      · obtain ⟨n, hx, hn⟩ := ih h
        -- a cleared cell ends the chain, so before the last cell the table is the old one
        have hsame : ∀ k ≤ n, (v.setFat c 0).fat^[k] (v.fat c) = v.fat^[k] (v.fat c) := by
          intro k hk
          induction k with
          | zero => rfl
          | succ k ihk =>
            have hlive := hn (k+1) hk
            rw [Function.iterate_succ_apply', ihk (by omega), setFat_fat v c 0 _ (by decide)]
              at hlive ⊢
            split_ifs at hlive ⊢
            · cases hlive
            · exact (Function.iterate_succ_apply' _ _ _).symm
        refine ⟨n+1, by rw [hx, hsame n le_rfl]; rfl, fun k hk => ?_⟩
        cases k with
        | zero => exact hc
        | succ k =>
          have hlive := hn k (by omega)
          rwa [hsame k (by omega)] at hlive
    · cases h

/-- When it ends it has cleared every cell of the chain. -/
theorem orbit_chainFrom {fuel n : ℕ} (h : Volume.freeLoop fuel v c = some w)
    (hn : ∀ k ≤ n, inChain (v.fat^[k] c) = true) : v.fat^[n] c ∈ chainFrom fuel v c := by
  have hhead : ∀ {fuel v w} {c : ℕ}, Volume.freeLoop fuel v c = some w → inChain c = true →
      c ∈ chainFrom fuel v c := fun {fuel v w c} h hc => by
    cases fuel with
    | zero => cases h
    | succ fuel =>
      rw [chainFrom, if_pos hc]
      exact List.mem_cons_self
  have hclosed : ∀ {fuel v w} {c : ℕ}, Volume.freeLoop fuel v c = some w →
      ∀ x ∈ chainFrom fuel v c, inChain (v.fat x) = true → v.fat x ∈ chainFrom fuel v c := by
    intro fuel
    induction fuel with
    | zero => intro v w c _ x hx; cases hx
    | succ fuel ih =>
      intro v w c h x hx hlive
      rw [chainFrom_succ] at hx ⊢
      rw [Volume.freeLoop] at h
      split_ifs at h hx ⊢ with hc
      · by_cases hxc : x = c
        · rw [hxc] at hlive ⊢
          exact List.mem_cons_of_mem _ (hhead h hlive)
        · have hx' := (List.mem_cons.mp hx).resolve_left hxc
          have hfat : (v.setFat c 0).fat x = v.fat x := by
            rw [setFat_fat v c 0 x (by decide), if_neg hxc]
          have hnext := ih h x hx'
          rw [hfat] at hnext
          exact List.mem_cons_of_mem _ (hnext hlive)
      · cases hx
  induction n with
  | zero => exact hhead h (hn 0 le_rfl)
  | succ n ih =>
    have hlive := hn (n+1) le_rfl
    rw [Function.iterate_succ_apply'] at hlive ⊢
    exact hclosed h _ (ih fun k hk => hn k (by omega)) hlive

/-- The cells that are not free. -/
def liveCells (v : Volume) : Finset ℕ := (Finset.range 65528).filter fun x => v.fat x ≠ 0

/-- `free_chain` ends on every table: a cleared cell stops it. -/
theorem freeLoop_returns {fuel : ℕ} (h : (liveCells v).card+2 ≤ fuel) :
    ∃ w, Volume.freeLoop fuel v c = some w := by
  induction fuel generalizing v c with
  | zero => omega
  | succ fuel ih =>
    rw [Volume.freeLoop]
    split_ifs with hc
    · by_cases h0 : v.fat c = 0
      · obtain ⟨fuel, rfl⟩ : ∃ k, fuel = k+1 := ⟨fuel-1, by omega⟩
        exact ⟨_, by rw [h0, Volume.freeLoop, if_neg (by decide)]⟩
      · apply ih
        have hlt : c < 65528 := by
          simp [inChain] at hc
          exact hc.2
        have hless : (liveCells (v.setFat c 0)).card < (liveCells v).card := by
          apply Finset.card_lt_card
          rw [Finset.ssubset_iff]
          refine ⟨c, by simp [liveCells, setFat_fat], ?_⟩
          intro x hx
          rcases Finset.mem_insert.mp hx with rfl | hx
          · simp [liveCells, hlt, h0]
          · simp only [liveCells, Finset.mem_filter, setFat_fat v c 0 x (by decide)] at hx ⊢
            refine ⟨hx.1, fun hzero => hx.2 ?_⟩
            split_ifs
            · rfl
            · exact hzero
        omega
    · exact ⟨v, rfl⟩

theorem freeChain_returns (v : Volume) (c : ℕ) : ∃ w, v.freeChain c = some w := by
  apply freeLoop_returns
  have hle : (liveCells v).card ≤ 65528 := by
    simpa [liveCells] using Finset.card_le_card (Finset.filter_subset (fun x => v.fat x ≠ 0)
      (Finset.range 65528))
  exact Nat.le_trans (Nat.add_le_add_right hle 2) (by decide)

end Chains

section Filling

theorem fillSectors_written (data : List UInt8) (lba m n s : ℕ) (d : Disk)
    (hm : 512*(m+n) < 4294967296) :
    (fillSectors data lba n s d (min data.length (512*m))).2 = min data.length (512*(m+n)) := by
  induction n generalizing m s d with
  | zero => rfl
  | succ n ih =>
    rw [fillSectors]
    by_cases hlt : min data.length (512*m) < data.length
    · have hpos : min data.length (512*m) = 512*m := by omega
      have hcount : (if data.length < u32 (512*m+512) then data.length-512*m else 512) =
          min 512 (data.length-512*m) := by
        rw [u32_of_lt (by omega)]
        split_ifs <;> omega
      have hnext : u32 (512*m+min 512 (data.length-512*m)) = min data.length (512*(m+1)) := by
        rw [u32_of_lt (by omega)]
        omega
      have hrest := ih (m+1) (s+1) (d.write (u32 (lba+s)) (block data (512*m)
        (min 512 (data.length-512*m)))) (by omega)
      rw [if_pos hlt, hpos]
      dsimp only
      rw [hcount, hnext, hrest, show m+1+n = m+(n+1) by omega]
    · rw [if_neg hlt]
      dsimp only
      omega

/-- Filling the sectors of a cluster changes no other sector. -/
theorem fillSectors_frame (data : List UInt8) (lba n s : ℕ) (d : Disk) (written : ℕ) :
    (fillSectors data lba n s d written).1.size = d.size ∧
      ∀ l, (∀ j < n, l ≠ u32 (lba+(s+j))) →
        (fillSectors data lba n s d written).1.data l = d.data l := by
  induction n generalizing s d written with
  | zero => exact ⟨rfl, fun _ _ => rfl⟩
  | succ n ih =>
    rw [fillSectors]
    by_cases hlt : written < data.length
    · rw [if_pos hlt]
      dsimp only
      generalize (if data.length < u32 (written+512) then data.length-written else 512) = count
      obtain ⟨hsize, hframe⟩ := ih (s+1) (d.write (u32 (lba+s)) (block data written count))
        (u32 (written+count))
      refine ⟨hsize.trans (write_size _ _ _), fun l hl => ?_⟩
      rw [hframe l fun j hj => by
        have := hl (j+1) (by omega)
        rwa [show s+(j+1) = s+1+j by omega] at this]
      exact write_other _ _ _ _ (hl 0 (Nat.succ_pos n))
    · rw [if_neg hlt]
      exact ⟨rfl, fun _ _ => rfl⟩

end Filling

section Storing

variable {v u : Volume} {data : List UInt8} {cs : List ℕ}

/-- The clusters that the bytes of a file need. -/
def needed (b : Bpb) (size : ℕ) : ℕ := (size+(512*b.spc-1))/(512*b.spc)

theorem lt_needed {b : Bpb} (hspc : 1 ≤ b.spc) (n size : ℕ) :
    n < needed b size ↔ 512*(n*b.spc) < size := by
  rw [needed, Nat.lt_iff_add_one_le, Nat.le_div_iff_mul_le (by omega)]
  have hmul : (n+1)*(512*b.spc) = 512*(n*b.spc)+512*b.spc := by ring
  omega

/-- Inside the loop: `u` was reached from `v` by taking the clusters `cs`. -/
structure Taken (v u : Volume) (cs : List ℕ) : Prop where
  bpb : u.bpb = v.bpb
  mounted : u.mounted = v.mounted
  size : u.disk.size = v.disk.size
  free : freeList v = cs++freeList u
  table : ∀ x, x ∉ cs → u.fat x = v.fat x
  chain : ∀ x ∈ cs, u.fat x ∈ cs ∨ u.fat x = 0xFFFF
  frame : ∀ lba, lba ∉ chainLbas v.bpb cs → u.disk.data lba = v.disk.data lba

theorem taken_nil (v : Volume) : Taken v v [] where
  bpb := rfl
  mounted := rfl
  size := rfl
  free := rfl
  table := fun _ _ => rfl
  chain := by simp
  frame := fun _ _ => rfl

theorem taken_range (h : Taken v u cs) : ∀ c ∈ cs, InRange v.bpb c ∧ v.fat c = 0 := by
  intro c hc
  apply mem_freeList.mp
  rw [h.free]
  exact List.mem_append_left _ hc

theorem taken_live (h : Taken v u cs) : ∀ x ∈ cs, u.fat x ≠ 0 := by
  intro x hx h0
  rcases h.chain x hx with hmem | hend
  · have := (taken_range h _ hmem).1.1
    omega
  · rw [h0] at hend
    cases hend

theorem taken_length (h : Taken v u cs) : cs.length ≤ (freeList v).length := by
  rw [h.free, List.length_append]
  exact Nat.le_add_right _ _

theorem freeList_length_le (v : Volume) : (freeList v).length ≤ 32766 := by
  have h1 := range_length v.bpb _ (freeList_nodup v) fun c hc => (mem_freeList.mp hc).1
  have h2 := total_le v.bpb
  omega

/-- The volume after the cluster `c` was linked behind `cs` and filled. -/
def stepped (b : Bpb) (u : Volume) (data : List UInt8) (cs : List ℕ) (c : ℕ) : Volume :=
  { linkTo u cs c with
    disk := (fillSectors data (b.clusterToLba c) b.spc 0 u.disk (filled b data cs)).1 }

/-- One round takes the first free cluster and links it. -/
theorem taken_step (data : List UInt8) (h : Taken v u cs) {c : ℕ} {rest : List ℕ}
    (hc : freeList u = c::rest) :
    Taken v (stepped v.bpb u data cs c) (cs++[c]) ∧
      freeList (stepped v.bpb u data cs c) = rest := by
  have hfree : c ∈ freeList u := by
    rw [hc]
    exact List.mem_cons_self
  obtain ⟨hr, h0⟩ := mem_freeList.mp hfree
  rw [h.bpb] at hr
  have hcn : c ∉ cs := fun hm => taken_live h c hm h0
  have hlt : c < 65536 := by
    have h1 := hr.2
    have h2 := total_le v.bpb
    omega
  obtain ⟨lb, lm, -⟩ := linkTo_frame u cs c
  have hlast : cs = [] ∨ cs.getLastD 0 ∈ cs := by
    cases cs with
    | nil => exact Or.inl rfl
    | cons a t =>
      refine Or.inr ?_
      rw [List.getLastD_eq_getLast?, List.getLast?_eq_getLast_of_ne_nil (List.cons_ne_nil a t)]
      exact List.getLast_mem _
  have hfat : ∀ x, (linkTo u cs c).fat x = if x ∈ cs ∧ x = cs.getLastD 0 then c
      else if x = c then 0xFFFF else u.fat x := by
    intro x
    rcases hlast with rfl | hmem
    · rw [linkTo, List.getLastD_nil, if_pos rfl, setFat_fat _ _ _ _ (by decide)]
      simp
    · have hge := (taken_range h _ hmem).1.1
      rw [linkTo, if_neg (by omega), setFat_fat _ _ _ _ hlt, setFat_fat _ _ _ _ (by decide)]
      by_cases hx : x = cs.getLastD 0
      · rw [if_pos hx, if_pos ⟨hx ▸ hmem, hx⟩]
      · simp only [hx, and_false, if_false]
  obtain ⟨hsize, hframe⟩ := fillSectors_frame data (v.bpb.clusterToLba c) v.bpb.spc 0 u.disk
    (filled v.bpb data cs)
  have htail : freeList (stepped v.bpb u data cs c) = rest := by
    refine freeList_tail hc lb fun x => ?_
    change (linkTo u cs c).fat x = 0 ↔ _
    rw [hfat]
    split_ifs with h1 h2
    · have hlive := taken_live h x h1.1
      have hge := hr.1
      exact ⟨fun hzero => absurd hzero (by omega), fun hh => absurd hh.2 hlive⟩
    · exact ⟨fun hzero => absurd hzero (by decide), fun hh => absurd h2 hh.1⟩
    · exact ⟨fun hzero => ⟨h2, hzero⟩, fun hh => hh.2⟩
  refine ⟨⟨lb.trans h.bpb, lm.trans h.mounted, hsize.trans h.size, ?_, ?_, ?_, ?_⟩, htail⟩
  · rw [htail, h.free, hc, List.append_assoc]
    rfl
  · intro x hx
    change (linkTo u cs c).fat x = _
    simp only [List.mem_append, List.mem_singleton, not_or] at hx
    rw [hfat, if_neg fun hh => hx.1 hh.1, if_neg hx.2]
    exact h.table x hx.1
  · intro x hx
    change (linkTo u cs c).fat x ∈ _ ∨ (linkTo u cs c).fat x = _
    rw [hfat]
    split_ifs with h1 h2
    · exact Or.inl (List.mem_append_right _ (List.mem_singleton.mpr rfl))
    · exact Or.inr rfl
    · rcases List.mem_append.mp hx with hx | hx
      · exact (h.chain x hx).imp_left fun hm => List.mem_append_left _ hm
      · exact absurd (List.mem_singleton.mp hx) h2
  · intro lba hl
    rw [chainLbas_append, List.mem_append, not_or] at hl
    rw [← h.frame lba hl.1]
    refine hframe lba fun j hj he => hl.2 ?_
    rw [chainLbas, List.flatMap_cons, List.flatMap_nil, List.append_nil, Nat.zero_add] at *
    exact List.mem_map.mpr ⟨j, List.mem_range.mpr hj, he.symm⟩

theorem taken_first (h : Taken v u cs) (c : ℕ) :
    (if cs.headD 0 = 0 then c else cs.headD 0) = (cs++[c]).headD 0 := by
  cases cs with
  | nil => rfl
  | cons a t =>
    have := (taken_range h a (by simp)).1.1
    rw [List.cons_append, List.headD_cons, List.headD_cons, if_neg (by omega)]

theorem filled_lt (hspc : 1 ≤ v.bpb.spc) :
    filled v.bpb data cs < data.length ↔ cs.length < needed v.bpb data.length := by
  rw [lt_needed hspc, filled]
  omega

/-- The number of written bytes after the next cluster. -/
theorem filled_next (hlen : cs.length < 32766) (lba c : ℕ) (d : Disk) :
    (fillSectors data lba v.bpb.spc 0 d (filled v.bpb data cs)).2 =
      filled v.bpb data (cs++[c]) := by
  have hspc := spc_lt v.bpb
  have hmul : (cs.length+1)*v.bpb.spc ≤ 32766*255 := Nat.mul_le_mul (by omega) (by omega)
  have hexp : (cs.length+1)*v.bpb.spc = cs.length*v.bpb.spc+v.bpb.spc := Nat.succ_mul _ _
  rw [filled, filled, List.length_append, List.length_singleton, hexp]
  exact fillSectors_written data lba _ _ 0 d (by omega)

/-- What a round of the loop makes of the volume and of the counter. -/
theorem taken_round (data : List UInt8) (h : Taken v u cs) {c : ℕ} {rest : List ℕ}
    (hc : freeList u = c::rest) :
    { linkTo u cs c with disk := (fillSectors data (u.bpb.clusterToLba c) u.bpb.spc 0
        (linkTo u cs c).disk (filled v.bpb data cs)).1 } = stepped v.bpb u data cs c ∧
      (fillSectors data (u.bpb.clusterToLba c) u.bpb.spc 0 (linkTo u cs c).disk
        (filled v.bpb data cs)).2 = filled v.bpb data (cs++[c]) := by
  have hlen : cs.length < 32766 := by
    have h1 := freeList_length_le v
    rw [h.free, hc, List.length_append, List.length_cons] at h1
    omega
  rw [h.bpb, (linkTo_frame u cs c).2.2]
  exact ⟨rfl, filled_next hlen _ c _⟩

/-- A round of the loop, when a cluster is free. -/
theorem storeLoop_next (h : Taken v u cs) (hlt : filled v.bpb data cs < data.length) {c : ℕ}
    {rest : List ℕ} (hc : freeList u = c::rest) (fuel : ℕ) :
    storeLoop data (fuel+1) u (cs.headD 0) (cs.getLastD 0) (filled v.bpb data cs) =
      storeLoop data fuel (stepped v.bpb u data cs c) ((cs++[c]).headD 0) c
        (filled v.bpb data (cs++[c])) := by
  obtain ⟨hstep, hpos⟩ := taken_round data h hc
  rw [(linkTo_frame u cs c).2.2] at hstep hpos
  obtain ⟨k, rfl, halloc⟩ := alloc_first hc
  rw [storeLoop_round fuel hlt halloc (Nat.succ_ne_zero k) rfl, taken_first h, hstep, hpos]

/-- The last round, when none is. -/
theorem storeLoop_full (hc : freeList u = []) {written : ℕ} (hlt : written < data.length)
    (fuel first prev : ℕ) : ∃ w, storeLoop data (fuel+1) u first prev written =
      some (none, w) := by
  have halloc : u.allocCluster = (0, u) := by rw [allocCluster_head, hc]
  rw [storeLoop, if_pos hlt, halloc]
  by_cases hfirst : first = 0
  · exact ⟨u.flushFat, if_pos hfirst⟩
  · obtain ⟨w, hw⟩ := freeChain_returns u first
    exact ⟨w.flushFat, (if_neg hfirst).trans (by rw [hw]; rfl)⟩

/-- The loop takes the first free clusters, as many as the bytes need, or there are too few. -/
theorem storeLoop_takes (hspc : 1 ≤ v.bpb.spc) (fuel : ℕ) (h : Taken v u cs)
    (hle : cs.length ≤ needed v.bpb data.length) (hfuel : (freeList u).length < fuel) :
    ∃ r w, storeLoop data fuel u (cs.headD 0) (cs.getLastD 0) (filled v.bpb data cs) =
        some (r, w) ∧
      ((freeList v).length < needed v.bpb data.length ∧ r = none ∨
        ∃ cs', r = some (cs'.headD 0) ∧ Taken v w cs' ∧
          cs'.length = needed v.bpb data.length) := by
  induction fuel generalizing u cs with
  | zero => omega
  | succ fuel ih =>
    by_cases hlt : filled v.bpb data cs < data.length
    · have hmore := (filled_lt hspc).mp hlt
      cases hc : freeList u with
      | nil =>
        have hfew : (freeList v).length < needed v.bpb data.length := by
          rw [h.free, hc, List.append_nil]
          exact hmore
        obtain ⟨w, hw⟩ := storeLoop_full hc hlt fuel (cs.headD 0) (cs.getLastD 0)
        exact ⟨none, w, hw, Or.inl ⟨hfew, rfl⟩⟩
      | cons c rest =>
        obtain ⟨hstep, hrest⟩ := taken_step data h hc
        have hlast : (cs++[c]).getLastD 0 = c := by simp
        have hshort : (freeList (stepped v.bpb u data cs c)).length < fuel := by
          rw [hc, List.length_cons] at hfuel
          rw [hrest]
          omega
        rw [storeLoop_next h hlt hc]
        have hrun := ih hstep (by simp; omega) hshort
        rwa [hlast] at hrun
    · have hdone : cs.length = needed v.bpb data.length := by
        have hnot := mt (filled_lt hspc).mpr hlt
        omega
      exact ⟨some (cs.headD 0), u, by rw [storeLoop, if_neg hlt], Or.inr ⟨cs, rfl, h, hdone⟩⟩

end Storing

section Replacing

variable {v : Volume} {d : ℕ} {name : List UInt8} {p : Slot}

theorem scan_found {L : List ℕ} (h : L.findSome? (v.probeSector name) = some (some p)) :
    p ∈ slotsOf (L.filter fun lba => lba < v.disk.size) ∧ Matches v name p := by
  have hslots := (scan_slots (v := v) (Volume.probeEntry name) L).symm.trans h
  obtain ⟨q, hq, hprobe⟩ := List.exists_of_findSome?_eq_some hslots
  have hmatch := probeAt_matches (v := v) name q
  rw [probeAt, hprobe] at hmatch
  split_ifs at hmatch with hend hm
  · cases hmatch
  · obtain rfl := Option.some.inj (Option.some.inj hmatch)
    exact ⟨hq, hm⟩

/-- The entry that a search finds has the name, and its sector can be read. -/
theorem found_slot (h : v.findDirEntry d name = some (some p)) :
    (∃ L : List ℕ, p ∈ slotsOf (L.filter fun lba => lba < v.disk.size)) ∧ Matches v name p := by
  unfold Volume.findDirEntry at h
  split_ifs at h
  · cases h
  · cases hf : v.bpb.rootLbas.findSome? (v.probeSector name) with
    | none =>
      rw [hf] at h
      cases h
    | some r =>
      rw [hf] at h
      obtain rfl := Option.some.inj h
      exact (scan_found hf).imp_left fun hp => ⟨_, hp⟩
  · split at h
    · cases h
    · next r hr =>
      obtain rfl := Option.some.inj h
      obtain ⟨c, hc⟩ := SuccessorChain.walk_returns hr
      exact (scan_found hc).imp_left fun hp => ⟨_, hp⟩
    · cases h

theorem found_readable (h : v.findDirEntry d name = some (some p)) :
    p.1 < v.disk.size ∧ p.2 < entriesPerSector := by
  obtain ⟨⟨L, hp⟩, -⟩ := found_slot h
  obtain ⟨hl, hi⟩ := mem_slotsOf.mp hp
  exact ⟨by simpa using (List.mem_filter.mp hl).2, hi⟩

theorem dropOld_absent (h : v.findDirEntry d name = some none) :
    dropOld v d name = some (some v) := by
  simp [dropOld, h]

theorem dropOld_protected (h : v.findDirEntry d name = some (some p))
    (hprot : (v.loadEntry p).attributes &&& attrProtectModify ≠ 0) :
    dropOld v d name = some none := by
  simp [dropOld, h, hprot]

/-- An entry without protection is dropped. -/
theorem dropOld_drops (h : v.findDirEntry d name = some (some p))
    (hprot : (v.loadEntry p).attributes &&& attrProtectModify = 0) :
    ∃ w, dropOld v d name = some (some w) ∧ Drops v w p := by
  have hload : v.loadEntry p = v.entryAt p :=
    congrArg (getEntry · p.2) (load_eq _ _ (found_readable h).1)
  simp only [dropOld, h, Option.bind_eq_bind, Option.bind_some, hprot, ne_eq, not_true_eq_false,
    if_false]
  rw [hload]
  by_cases h2 : 2 ≤ (v.entryAt p).cluster
  · obtain ⟨w, hw⟩ := freeChain_returns v (v.entryAt p).cluster
    obtain ⟨hb, hd, hm, hfat⟩ := freeLoop_frees hw
    refine ⟨w.updateEntry p DirEntry.markDeleted, ?_, hb, hm, fun x => ?_, ?_⟩
    · rw [if_pos h2, hw]
      rfl
    · change w.fat x = _
      rw [hfat, freedWith, if_pos h2]
    · simp only [Volume.updateEntry, hd]
  · refine ⟨v.updateEntry p DirEntry.markDeleted, ?_, rfl, rfl, fun x => ?_, rfl⟩
    · rw [if_neg h2]
      rfl
    · change v.fat x = _
      rw [freedWith, if_neg h2, if_neg List.not_mem_nil]

end Replacing

end Vlsmc.FirstFit
