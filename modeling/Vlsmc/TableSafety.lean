import Vlsmc.TableBounds

/-!
# When a mounted volume is safe to use

`write_file_in_dir` searches the directory again after it has changed the table. Where it has, the
chain goes on in the clusters that it took, which lie in the table, and elsewhere as before. So it
is as safe as its search for the name and the chain of the entry that it drops; the geometry and
these chains decide whether a mounted volume is safe to use.
-/

set_option autoImplicit false

namespace Vlsmc.TableSafety
open Vlsmc.Fat16Layout Vlsmc.Fat16Names Vlsmc.Fat16Volume Vlsmc.Fat16Geometry Vlsmc.Fat16Chains
open Vlsmc.Fat16Directory Vlsmc.Fat16Updates Vlsmc.Fat16Store Vlsmc.Fat16Mount Vlsmc.Words
open Vlsmc.DirectoryScans Vlsmc.SuccessorChain Vlsmc.ChainLoops Vlsmc.ChainCalls
open Vlsmc.DirectoryEdits Vlsmc.FirstFit Vlsmc.TableAccesses Vlsmc.TableBounds
open Vlsmc.Fat16Files hiding readEntry fat16Read

/-- The chain that is searched for the name, the chain of the entry that is dropped, and room for
the entry when the number of the directory is above 0xFFF7. -/
def WriteInTable (v : Volume) (dir : ℕ) (name data : List UInt8) : Prop :=
  v.mounted = false ∨ FindInTable v dir name ∧
    (∀ p, v.findDirEntry dir name = some (some p) →
      (v.loadEntry p).attributes &&& attrProtectModify = 0 → 2 ≤ (v.loadEntry p).cluster →
        ChainInTable v (v.loadEntry p).cluster) ∧
    (dir ≠ 0 → 0xFFF8 ≤ dir%65536 → (freeList v).length ≤ needed v.bpb data.length)

/-- The indices of a call lie in the table. -/
def CallInTable (v : Volume) : TableCall → Prop
  | .findDirEntry dir name => FindInTable v dir name
  | .findFreeDirEntry dir => FreeInTable v dir
  | .read vn offset size => ReadInTable v vn offset size
  | .readdir dir maxEntries => ReaddirInTable v dir maxEntries
  | .freeChain start => ChainInTable v start
  | .writeFileInDir dir name data => WriteInTable v dir name data

section Storing

variable {v u : Volume} {data : List UInt8} {cs : List ℕ}

theorem taken_inTable (h : Taken v u cs) : ∀ c ∈ cs, c < Bpb.maxFatEntries := by
  intro c hc
  have hr := (taken_range h c hc).1.2
  have htotal : v.bpb.total ≤ Bpb.maxFatEntries := total_le v.bpb
  omega

/-- From a cluster that was taken the chain goes on in such clusters. -/
theorem taken_chain (h : Taken v u cs) {c n : ℕ} (hc : c ∈ cs)
    (hn : ∀ k ≤ n, inChain (u.fat^[k] c) = true) : u.fat^[n] c ∈ cs := by
  induction n with
  | zero => exact hc
  | succ n ih =>
    have hlive := hn (n+1) le_rfl
    rw [Function.iterate_succ_apply'] at hlive ⊢
    rcases h.chain _ (ih fun k hk => hn k (by omega)) with hmem | hend
    · exact hmem
    · rw [hend] at hlive
      cases hlive

theorem taken_ends (h : Taken v u cs) : (cs.headD 0 ≠ 0 → cs.headD 0 ∈ cs) ∧
    (cs.getLastD 0 ≠ 0 → cs.getLastD 0 ∈ cs) := by
  cases cs with
  | nil => exact ⟨fun hne => absurd rfl hne, fun hne => absurd rfl hne⟩
  | cons a t =>
    refine ⟨fun _ => List.mem_cons_self, fun _ => ?_⟩
    rw [List.getLastD_eq_getLast?, List.getLast?_eq_getLast_of_ne_nil (List.cons_ne_nil a t)]
    exact List.getLast_mem _

theorem storeAccesses_next (h : Taken v u cs) (hlt : filled v.bpb data cs < data.length) {c : ℕ}
    {rest : List ℕ} (hc : freeList u = c::rest) (fuel : ℕ) :
    storeAccesses data (fuel+1) u (cs.headD 0) (cs.getLastD 0) (filled v.bpb data cs) =
      allocAccesses u++((if cs.getLastD 0 = 0 then [] else [cs.getLastD 0])++
        storeAccesses data fuel (stepped v.bpb u data cs c) ((cs++[c]).headD 0)
          ((cs++[c]).getLastD 0) (filled v.bpb data (cs++[c]))) := by
  have hlast : (cs++[c]).getLastD 0 = c := by simp
  obtain ⟨hstep, hpos⟩ := taken_round data h hc
  obtain ⟨k, rfl, halloc⟩ := alloc_first hc
  rw [storeAccesses, if_pos hlt, halloc, hlast, ← taken_first h, ← hstep, ← hpos]
  rfl

theorem store_inTable (fuel : ℕ) (h : Taken v u cs) :
    ∀ i ∈ storeAccesses data fuel u (cs.headD 0) (cs.getLastD 0) (filled v.bpb data cs),
      i < Bpb.maxFatEntries := by
  induction fuel generalizing u cs with
  | zero => intro i hi; cases hi
  | succ fuel ih =>
    intro i hi
    by_cases hlt : filled v.bpb data cs < data.length
    · cases hfree : freeList u with
      | nil =>
        rw [storeAccesses, if_pos hlt, allocCluster_head, hfree] at hi
        rcases List.mem_append.mp hi with hi | hi
        · exact alloc_inTable i hi
        · rcases List.mem_append.mp hi with hi | hi
          · by_cases hfirst : cs.headD 0 = 0
            · rw [if_pos hfirst] at hi
              cases hi
            · rw [if_neg hfirst] at hi
              obtain ⟨n, rfl, hn⟩ := chainFrom_orbit hi
              exact taken_inTable h _ (taken_chain h ((taken_ends h).1 hfirst) hn)
          · exact flush_inTable i hi
      | cons c rest =>
        rw [storeAccesses_next h hlt hfree] at hi
        rcases List.mem_append.mp hi with hi | hi
        · exact alloc_inTable i hi
        · rcases List.mem_append.mp hi with hi | hi
          · by_cases hprev : cs.getLastD 0 = 0
            · rw [if_pos hprev] at hi
              cases hi
            · rw [if_neg hprev] at hi
              obtain rfl := List.mem_singleton.mp hi
              exact taken_inTable h _ ((taken_ends h).2 hprev)
          · exact ih (taken_step data h hfree).1 i hi
    · rw [storeAccesses, if_neg hlt] at hi
      cases hi

end Storing

section Linking

variable {v : Volume} {d : ℕ} {name : List UInt8}

/-- The first cluster at which the search stops, when it stops there at an entry. -/
theorem first_match (hm : v.mounted = true) (hd : d ≠ 0) {n : ℕ}
    (hbefore : ∀ k < n, ¬ FindStops v name (v.fat^[k] (d%65536)))
    (hlive : inChain (v.fat^[n] (d%65536)) = true)
    (hused : ∀ q ∈ readableSlots v (v.fat^[n] (d%65536)), ¬ (v.entryAt q).isEnd)
    {q : Slot} (hq : q ∈ readableSlots v (v.fat^[n] (d%65536))) (hmatch : Matches v name q) :
    ∃ p ∈ readableSlots v (v.fat^[n] (d%65536)), v.findDirEntry d name = some (some p) := by
  have hstops := fun k => find_stops (v := v) (c := v.fat^[k] (d%65536)) name
  have hhere := (hstops n).mpr (Or.inr ⟨q, hq, Or.inr hmatch⟩)
  obtain ⟨r, hr⟩ : ∃ r, walk v.fat inChain
      (fun c => (v.bpb.clusterLbas c).findSome? (v.probeSector name)) (n+1) 0 (d%65536) = some r :=
    walk_within hhere (Nat.lt_succ_self n)
  have hend := walk_stop (fun k hk hs => hbefore k hk ((hstops k).mp hs)) hhere hr
  obtain ⟨b, rfl, -, hb⟩ := hend.resolve_right fun h => by
    rw [hlive] at h
    cases h.1
  have hscan := (scan_slots (v := v) (Volume.probeEntry name) _).symm.trans hb
  obtain ⟨p, hp, hprobe⟩ := List.exists_of_findSome?_eq_some hscan
  have hat := probeAt_matches (v := v) name p
  rw [probeAt, hprobe, if_neg (hused p hp)] at hat
  split_ifs at hat with hpm
  obtain rfl := Option.some.inj hat
  have hfind : ChainCalls.findDirEntry (n+1) v d name = some (some p) := by
    rw [ChainCalls.findDirEntry, if_neg (by simp [hm]), if_neg hd, hr]
  exact ⟨p, hp, find_model hfind⟩

/-- What `write_file_in_dir` has done before it stores: nothing, or the entry of the name is
dropped. -/
def Dropped (v v1 : Volume) (d : ℕ) (name : List UInt8) : Prop :=
  (v.findDirEntry d name = some none ∧ v1 = v) ∨
    ∃ p, v.findDirEntry d name = some (some p) ∧ Drops v v1 p

variable {v1 w : Volume} {cs : List ℕ} (hdrop : Dropped v v1 d name) (ht : Taken v1 w cs)

section

include hdrop

theorem dropped_bpb : v1.bpb = v.bpb ∧ v1.mounted = v.mounted ∧ v1.disk.size = v.disk.size := by
  rcases hdrop with ⟨-, rfl⟩ | ⟨p, -, hd⟩
  · exact ⟨rfl, rfl, rfl⟩
  · exact ⟨hd.bpb, hd.mounted, by rw [hd.disk, updateEntry_size]⟩

/-- An entry of the table that is not zero is the old one. -/
theorem dropped_fat {x : ℕ} (h : v1.fat x ≠ 0) : v1.fat x = v.fat x := by
  rcases hdrop with ⟨-, rfl⟩ | ⟨p, -, hd⟩
  · rfl
  · rw [hd.fat] at h ⊢
    split_ifs at h ⊢
    · exact absurd rfl h
    · rfl

/-- The slot of the dropped entry is free. -/
theorem dropped_free {p : Slot} (hp : v.findDirEntry d name = some (some p)) :
    (v1.entryAt p).isDeleted := by
  rcases hdrop with ⟨hnone, -⟩ | ⟨q, hq, hd⟩
  · rw [hp] at hnone
    cases hnone
  · obtain rfl : p = q := by
      rw [hp] at hq
      exact Option.some.inj (Option.some.inj hq)
    have hsame : v1.entryAt p = (v.updateEntry p DirEntry.markDeleted).entryAt p := by
      rw [Volume.entryAt, hd.disk]
      rfl
    rw [hsame, updateEntry_entryAt v p _ (found_readable hp).1, setAt_same]
    exact markDeleted_deleted _

theorem dropped_frame {lba : ℕ} (h : ∀ p, v.findDirEntry d name = some (some p) → lba ≠ p.1) :
    v1.disk.data lba = v.disk.data lba := by
  rcases hdrop with ⟨-, rfl⟩ | ⟨p, hp, hd⟩
  · rfl
  · rw [hd.disk]
    exact updateEntry_other v p _ lba (h p hp)

end

include hdrop ht

/-- The chain along which a slot is searched is the old one, or it goes on in the new clusters. -/
theorem linked_chain {n : ℕ} (hlive : ∀ k ≤ n, inChain (w.fat^[k] (d%65536)) = true)
    (hnew : ∀ k ≤ n, w.fat^[k] (d%65536) ∉ cs) :
    ∀ k ≤ n, w.fat^[k] (d%65536) = v.fat^[k] (d%65536) := by
  intro k hk
  induction k with
  | zero => rfl
  | succ k ih =>
    have hnext := hlive (k+1) hk
    rw [Function.iterate_succ_apply', ht.table _ (hnew k (by omega))] at hnext ⊢
    have hne : v1.fat (w.fat^[k] (d%65536)) ≠ 0 := fun h0 => by
      rw [h0] at hnext
      cases hnext
    rw [dropped_fat hdrop hne, ih (by omega), ← Function.iterate_succ_apply' v.fat]

/-- The slots of an old cluster are as they were, unless the dropped entry was there. -/
theorem linked_slots {x : ℕ} (hx : inChain x = true) (hnew : x ∉ cs)
    (hused : ∀ q ∈ readableSlots w.flushFat x, ¬ (w.flushFat.entryAt q).isDeleted) :
    readableSlots w.flushFat x = readableSlots v x ∧
      (∀ q ∈ readableSlots v x, w.flushFat.entryAt q = v.entryAt q) ∧
      ∀ p, v.findDirEntry d name = some (some p) → p ∉ readableSlots v x := by
  obtain ⟨hb, -, hsize⟩ := dropped_bpb hdrop
  have hlive : 2 ≤ x ∧ x < 65536 := by
    simp only [inChain, Bool.and_eq_true, decide_eq_true_eq] at hx
    omega
  have hslots : readableSlots w.flushFat x = readableSlots v x := by
    rw [readableSlots, readableSlots, flushFat_bpb, flushFat_size, ht.bpb, ht.size, hb, hsize]
  -- the flush and the new clusters lie elsewhere
  have hdata : ∀ lba ∈ v.bpb.clusterLbas x, w.flushFat.disk.data lba = v1.disk.data lba := by
    intro lba hl
    rw [flushFat_frame, ht.frame]
    · intro hm
      obtain ⟨c, hc, hlc⟩ := List.mem_flatMap.mp hm
      obtain ⟨hr, -⟩ := taken_range ht c hc
      rw [hb] at hlc
      exact clusterLbas_disjoint_wide v.bpb hlive.1 hlive.2 hr.1 (lt_wide _ hr.2)
        (fun he => hnew (he ▸ hc)) hl hlc
    · rw [ht.bpb, hb]
      exact fatRegion_not_cluster_wide v.bpb hlive.1 hlive.2 hl
  have hsector : ∀ q ∈ readableSlots v x, q.1 ∈ v.bpb.clusterLbas x := fun q hq =>
    (List.mem_filter.mp (mem_slotsOf.mp hq).1).1
  have hgone : ∀ p, v.findDirEntry d name = some (some p) → p.1 ∉ v.bpb.clusterLbas x := by
    intro p hp hl
    have hread := found_readable hp
    have hpx : p ∈ readableSlots w.flushFat x := by
      rw [hslots]
      exact mem_slotsOf.mpr ⟨List.mem_filter.mpr ⟨hl, by simpa using hread.1⟩, hread.2⟩
    apply hused p hpx
    rw [Volume.entryAt, hdata _ hl]
    exact dropped_free hdrop hp
  refine ⟨hslots, fun q hq => ?_, fun p hp hq => hgone p hp (hsector p hq)⟩
  have hl := hsector q hq
  rw [Volume.entryAt, hdata _ hl, dropped_frame hdrop fun p hp he => hgone p hp (he ▸ hl)]
  rfl

/-- The search for a slot follows no cell that the search for the name has not followed, and the
clusters that were taken. -/
theorem linked_inTable (hm : v.mounted = true) (hd : d ≠ 0) (hfind : FindInTable v d name) :
    InTable w.flushFat (FreeStops w.flushFat) (d%65536) := by
  intro n hn
  change w.fat^[n] (d%65536) < _
  have hlive : ∀ k ≤ n, inChain (w.fat^[k] (d%65536)) = true := fun k hk => by
    by_contra hc
    exact hn k hk (Or.inl (show inChain (w.fat^[k] (d%65536)) = false by simpa using hc))
  by_cases hnew : ∀ k ≤ n, w.fat^[k] (d%65536) ∉ cs
  · have hchain := linked_chain hdrop ht hlive hnew
    have hslots : ∀ k ≤ n, _ := fun k hk => linked_slots hdrop ht (hlive k hk) (hnew k hk)
      fun q hq hdel => hn k hk (Or.inr ⟨q, hq, Or.inr hdel⟩)
    have hused : ∀ k ≤ n, ∀ q ∈ readableSlots v (v.fat^[k] (d%65536)),
        ¬ (v.entryAt q).isEnd := fun k hk q hq hend => by
      obtain ⟨hs, hent, -⟩ := hslots k hk
      rw [hchain k hk] at hs hent
      rw [← hent q hq] at hend
      apply hn k hk
      change FreeStops w.flushFat (w.fat^[k] (d%65536))
      rw [hchain k hk]
      exact Or.inr ⟨q, by rwa [hs], Or.inl hend⟩
    have hpass : ∀ k ≤ n, ¬ FindStops v name (v.fat^[k] (d%65536)) := by
      intro k
      induction k using Nat.strongRecOn with
      | ind k ih =>
        intro hk hstop
        have hc := hlive k hk
        rw [hchain k hk] at hc
        rcases hstop with hend | ⟨q, hq, hend | hmatch⟩
        · rw [hc] at hend
          cases hend
        · exact hused k hk q hq hend
        · obtain ⟨p, hp, hfound⟩ := first_match hm hd (fun j hj => ih j hj (by omega)) hc
            (hused k hk) hq hmatch
          have hgone := (hslots k hk).2.2 p hfound
          rw [hchain k hk] at hgone
          exact hgone hp
    rw [hchain n le_rfl]
    rcases hfind with hunmounted | hroot | hin
    · rw [hm] at hunmounted
      cases hunmounted
    · exact absurd hroot hd
    · exact hin n hpass
  · obtain ⟨k, hk, hmem⟩ : ∃ k ≤ n, w.fat^[k] (d%65536) ∈ cs := by
      by_contra hnone
      exact hnew fun k hk hmem => hnone ⟨k, hk, hmem⟩
    have hshift : ∀ j, w.fat^[j] (w.fat^[k] (d%65536)) = w.fat^[j+k] (d%65536) := fun j =>
      (Function.iterate_add_apply w.fat j k _).symm
    have hlast := taken_chain ht (n := n-k) hmem fun j hj => by
      rw [hshift]
      exact hlive _ (by omega)
    rw [hshift, Nat.sub_add_cancel hk] at hlast
    exact taken_inTable ht _ hlast

end Linking

section Writing

variable {v : Volume} {dir : ℕ} {name data : List UInt8}

/-- What becomes of the volume up to the search for a slot. -/
theorem store_result (data : List UInt8) (hspc : 1 ≤ v.bpb.spc) : ∃ r w,
    storeLoop data storeFuel v 0 0 0 = some (r, w) ∧
      ((freeList v).length < needed v.bpb data.length ∧ r = none ∨
        ∃ cs, r = some (cs.headD 0) ∧ Taken v w cs ∧ cs.length = needed v.bpb data.length) := by
  have hfew := freeList_length_le v
  have hstart : filled v.bpb data [] = 0 := by simp [filled]
  have hrun := @storeLoop_takes v v data [] hspc storeFuel (taken_nil v) (Nat.zero_le _)
    (show (freeList v).length < 32769 by omega)
  rw [hstart] at hrun
  exact hrun

theorem write_found {fuel : ℕ} (hm : v.mounted = true) {found : Option Slot}
    (h : ChainCalls.findDirEntry fuel v dir name = some found) :
    writeAccesses fuel v dir name data = findAccesses fuel v dir name++
      ((found.elim [] fun p => dropAccesses v p)++
        match dropOld v dir name with
        | some (some v1) =>
          storeAccesses data storeFuel v1 0 0 0++
            match storeLoop data storeFuel v1 0 0 0 with
            | some (some _, v2) => flushAccesses v2++findFreeAccesses fuel v2.flushFat dir
            | _ => []
        | _ => []) := by
  rw [writeAccesses, h]
  exact if_neg (by simp [hm])

theorem dropped_of {v1 : Volume} (h : dropOld v dir name = some (some v1)) :
    Dropped v v1 dir name := by
  cases hf : v.findDirEntry dir name with
  | none => simp [dropOld, hf] at h
  | some found =>
    cases found with
    | none =>
      rw [dropOld_absent hf] at h
      exact Or.inl ⟨hf, (Option.some.inj (Option.some.inj h)).symm⟩
    | some p =>
      by_cases hprot : (v.loadEntry p).attributes &&& attrProtectModify = 0
      · obtain ⟨w, hw, hd⟩ := dropOld_drops hf hprot
        rw [hw] at h
        obtain rfl := Option.some.inj (Option.some.inj h)
        exact Or.inr ⟨p, hf, hd⟩
      · rw [dropOld_protected hf hprot] at h
        cases Option.some.inj h

/-- A number above 0xFFF7 is no directory with entries. -/
theorem high_absent {fuel : ℕ} (hm : v.mounted = true) (hd : dir ≠ 0) (h : 0xFFF8 ≤ dir%65536) :
    ChainCalls.findDirEntry (fuel+1) v dir name = some none := by
  have hstop : inChain (dir%65536) = false := by
    simp [inChain]
    omega
  rw [ChainCalls.findDirEntry, if_neg (by simp [hm]), if_neg hd, walk, if_neg (by simp [hstop])]

theorem write_safe (hspc : 1 ≤ v.bpb.spc) (hm : v.mounted = true)
    (h : WriteInTable v dir name data) (fuel : ℕ) :
    ∀ i ∈ writeAccesses fuel v dir name data, i < Bpb.maxFatEntries := by
  obtain ⟨hfind, hchain, hhigh⟩ := h.resolve_left (by simp [hm])
  intro i hi
  cases hf : ChainCalls.findDirEntry fuel v dir name with
  | none =>
    rw [writeAccesses, if_neg (by simp [hm]), hf, List.append_nil] at hi
    exact (find_inTable dir name).mpr hfind fuel i hi
  | some found =>
    have hmodel := find_model hf
    rw [write_found hm hf] at hi
    rcases List.mem_append.mp hi with hi | hi
    · exact (find_inTable dir name).mpr hfind fuel i hi
    · rcases List.mem_append.mp hi with hi | hi
      · cases found with
        | none => cases hi
        | some p =>
          change i ∈ dropAccesses v p at hi
          rw [dropAccesses] at hi
          by_cases hprot : (v.loadEntry p).attributes &&& attrProtectModify = 0
          · rw [if_neg (not_not.mpr hprot)] at hi
            by_cases h2 : 2 ≤ (v.loadEntry p).cluster
            · rw [if_pos h2] at hi
              exact (chain_inTable _).mpr (hchain p hmodel hprot h2) i hi
            · rw [if_neg h2] at hi
              cases hi
          · rw [if_pos hprot] at hi
            cases hi
      · split at hi
        · next v1 hdrop =>
          have hd := dropped_of hdrop
          obtain ⟨hb, hmount, -⟩ := dropped_bpb hd
          rcases List.mem_append.mp hi with hi | hi
          · have hstart : filled v1.bpb data [] = 0 := by simp [filled]
            have hstore := @store_inTable v1 v1 data [] storeFuel (taken_nil v1) i
            rw [hstart] at hstore
            exact hstore hi
          · split at hi
            · next first w hstore =>
              obtain ⟨r, w', hrun, hcases⟩ := store_result data (show 1 ≤ v1.bpb.spc by rwa [hb])
              obtain ⟨rfl, rfl⟩ := Prod.mk.inj (Option.some.inj (hstore.symm.trans hrun))
              rcases hcases with ⟨-, hnone⟩ | ⟨cs, -, ht, hcount⟩
              · cases hnone
              · rcases List.mem_append.mp hi with hi | hi
                · exact flush_inTable i hi
                · refine (free_inTable dir).mpr ?_ fuel i hi
                  by_cases hroot : dir = 0
                  · exact Or.inr (Or.inl hroot)
                  · refine Or.inr (Or.inr ⟨linked_inTable hd ht hm hroot hfind, fun hlast => ?_⟩)
                    -- nothing was found, and the store has used all of the free clusters
                    rcases hd with ⟨-, rfl⟩ | ⟨p, hp, -⟩
                    · have hroom := hhigh hroot hlast
                      rw [ht.free, List.length_append, hcount] at hroom
                      change freeList w = []
                      exact List.length_eq_zero_iff.mp (by omega)
                    · have hnone := find_model (@high_absent v dir name fuel hm hroot hlast)
                      rw [hp] at hnone
                      cases hnone
            · cases hi
        · cases hi

theorem write_inTable (hspc : 1 ≤ v.bpb.spc) :
    (∀ fuel, ∀ i ∈ writeAccesses fuel v dir name data, i < Bpb.maxFatEntries) ↔
      WriteInTable v dir name data := by
  by_cases hm : v.mounted = false
  · exact iff_of_true (fun fuel i hi => by simp [writeAccesses, hm] at hi) (Or.inl hm)
  have hmount : v.mounted = true := by simpa using hm
  refine ⟨fun hall => Or.inr ⟨?_, fun p hp hprot h2 => ?_, fun hd hlast => ?_⟩,
    fun h fuel => write_safe hspc hmount h fuel⟩
  · refine (find_inTable dir name).mp fun fuel i hi => hall fuel i ?_
    rw [writeAccesses, if_neg hm]
    exact List.mem_append_left _ hi
  · refine (chain_inTable _).mp fun i hi => hall chainFuel i ?_
    rw [write_found hmount (show ChainCalls.findDirEntry chainFuel v dir name = _ from hp)]
    refine List.mem_append_right _ (List.mem_append_left _ ?_)
    change i ∈ dropAccesses v p
    rwa [dropAccesses, if_neg (not_not.mpr hprot), if_pos h2]
  · by_contra hmany
    have hnone := find_model (@high_absent v dir name 0 hmount hd hlast)
    obtain ⟨r, w, hrun, hcases⟩ := store_result data hspc
    rcases hcases with ⟨hshort, -⟩ | ⟨cs, rfl, ht, hcount⟩
    · omega
    · have hfree : FreeInTable w.flushFat dir := (free_inTable dir).mp fun fuel i hi => by
        cases fuel with
        | zero =>
          rw [findFreeAccesses, if_neg (by simp [ht.mounted, hmount]), if_neg hd] at hi
          cases hi
        | succ fuel =>
          apply hall (fuel+1) i
          rw [write_found hmount (high_absent hmount hd hlast), dropOld_absent hnone]
          refine List.mem_append_right _ (List.mem_append_right _ (List.mem_append_right _ ?_))
          rw [hrun]
          exact List.mem_append_right _ hi
      rcases hfree with hun | hroot | ⟨-, hempty⟩
      · rw [flushFat_mounted, ht.mounted] at hun
        exact hm hun
      · exact hd hroot
      · have hnil : freeList w = [] := hempty hlast
        have hlen := congrArg List.length ht.free
        rw [hnil, List.append_nil] at hlen
        omega

end Writing

section Safety

/-- The indices of a call lie in the table exactly when its chains do. -/
theorem call_inTable {v : Volume} (hspc : 1 ≤ v.bpb.spc) (c : TableCall) :
    (∀ i, c.Accesses v i → i < Bpb.maxFatEntries) ↔ CallInTable v c := by
  have hall : (∀ i, c.Accesses v i → i < Bpb.maxFatEntries) ↔
      ∀ fuel, ∀ i ∈ c.indices fuel v, i < Bpb.maxFatEntries :=
    ⟨fun h fuel i hi => h i ⟨fuel, hi⟩, fun h i ⟨fuel, hi⟩ => h fuel i hi⟩
  rw [hall]
  cases c with
  | findDirEntry dir name => exact find_inTable dir name
  | findFreeDirEntry dir => exact free_inTable dir
  | read vn offset size => exact read_inTable vn offset size
  | readdir dir maxEntries => exact readdir_inTable dir
  | freeChain start => exact freeChain_inTable start
  | writeFileInDir dir name data => exact write_inTable hspc

theorem mount_eq (present buffer : Bool) (v : Volume) : mount present buffer v =
    if (init present buffer v).1 = true ∧ (init present buffer v).2.bpb.spc = 0 then none
    else some (init present buffer v) := by
  rw [mount]
  cases hi : init present buffer v with
  | mk ok w =>
    cases ok with
    | false => simp
    | true =>
      by_cases h0 : w.bpb.spc = 0
      · simp [divided, h0]
      · simp [divided, h0]

/-- `init` divides by no zero, and when it succeeds the geometry is sound and a call on the volume,
whatever its table and its disk hold by then, accesses the table within its bounds. -/
def Safe (present buffer : Bool) (old v : Volume) (c : TableCall) : Prop :=
  mount present buffer old ≠ none ∧ ∀ m, mount present buffer old = some (true, m) →
    1 ≤ m.bpb.spc ∧ m.bpb.dataStartLba ≤ totalSectors (old.disk.data 0) ∧
      (v.bpb = m.bpb → v.mounted = true → ∀ i, c.Accesses v i → i < Bpb.maxFatEntries)

/-- A disk that `init` can read decides it: its geometry, and the chains of the call. -/
theorem safe_iff (present buffer : Bool) (old v : Volume) (c : TableCall) :
    Safe present buffer old v c ↔ (present = true → buffer = true → Loads old.disk →
      1 ≤ (bpbOf (old.disk.data 0)).spc ∧
      (bpbOf (old.disk.data 0)).dataStartLba ≤ totalSectors (old.disk.data 0) ∧
      (v.bpb = bpbOf (old.disk.data 0) → v.mounted = true → CallInTable v c)) := by
  have hinit := init_iff present buffer old
  have hvolume := @init_volume present buffer old
  rw [Safe, mount_eq]
  cases hi : init present buffer old with
  | mk ok w =>
    rw [hi] at hinit hvolume
    cases ok with
    | false =>
      refine iff_of_true ⟨by simp, fun m hm => by simp at hm⟩ fun hp hb hl => ?_
      cases hinit.mpr ⟨hp, hb, hl⟩
    | true =>
      have hbpb : w.bpb = bpbOf (old.disk.data 0) := (hvolume rfl).1
      obtain ⟨hp, hb, hl⟩ := hinit.mp rfl
      simp only [hp, hb, hl, true_and, forall_const, ← hbpb]
      constructor
      · rintro ⟨hnone, hall⟩
        have hspc : w.bpb.spc ≠ 0 := fun h0 => hnone (if_pos h0)
        obtain ⟨h1, hstart, hcall⟩ := hall w (if_neg hspc)
        exact ⟨h1, hstart, fun hv hm => (call_inTable (by rwa [hv]) c).mp (hcall hv hm)⟩
      · rintro ⟨h1, hstart, hcall⟩
        rw [if_neg (by omega)]
        refine ⟨by simp, fun m hm => ?_⟩
        obtain rfl : w = m := (Prod.mk.inj (Option.some.inj hm)).2
        exact ⟨h1, hstart, fun hv hm => (call_inTable (by rwa [hv]) c).mpr (hcall hv hm)⟩

end Safety

section Unchecked

/-- A disk of four sectors with that number of sectors per cluster. -/
def uncheckedDisk (spc : UInt8) : Disk :=
  ⟨4, fun l => if l = 0 then
      fun k => if k = 13 then spc else if k = 19 then 4 else bootSector 1 k
    else zeroSector⟩

def unchecked (spc : UInt8) : Volume :=
  ⟨bpbOf zeroSector, false, fun _ => 0, uncheckedDisk spc⟩

theorem unchecked_init {spc : UInt8} {v : Volume} (hdisk : v.disk = uncheckedDisk spc) :
    (init true true v).1 = true ∧ (init true true v).2.bpb = bpbOf ((uncheckedDisk spc).data 0) ∧
      (init true true v).2.mounted = true ∧ (init true true v).2.disk = uncheckedDisk spc := by
  have hloads : Loads (uncheckedDisk spc) :=
    ⟨Nat.succ_pos 3, by simp [bytesPerSector, word16, uncheckedDisk, bootSector], fun s hs => by
      have hone : (bpbOf ((uncheckedDisk spc).data 0)).fatSectors = 1 := rfl
      have hstart : (bpbOf ((uncheckedDisk spc).data 0)).fatStartLba = 1 := rfl
      have hsize : (uncheckedDisk spc).size = 4 := rfl
      omega⟩
  have hok : (init true true v).1 = true :=
    (init_iff true true v).mpr ⟨rfl, rfl, by rwa [hdisk]⟩
  have hvolume := init_volume hok
  rw [hdisk] at hvolume
  exact ⟨hok, hvolume⟩

/-- `init` divides by zero; and on a volume with a sound geometry a search is led out of the
table. -/
theorem unchecked_fields : mount true true (unchecked 0) = none ∧
    ∃ m, mount true true (unchecked 1) = some (true, m) ∧ 1 ≤ m.bpb.spc ∧
      m.bpb.dataStartLba ≤ totalSectors ((unchecked 1).disk.data 0) ∧
      (TableCall.findDirEntry 0x9000 [0x42]).Accesses m 0x9000 ∧ ¬0x9000 < Bpb.maxFatEntries := by
  have hinit : ∀ spc, (init true true (unchecked spc)).1 = true := fun spc =>
    (unchecked_init rfl).1
  have hvolume : ∀ spc, (init true true (unchecked spc)).2.bpb =
        bpbOf ((uncheckedDisk spc).data 0) ∧ (init true true (unchecked spc)).2.mounted = true ∧
        (init true true (unchecked spc)).2.disk = uncheckedDisk spc := fun spc =>
    (unchecked_init rfl).2
  have hspc : ∀ spc, (init true true (unchecked spc)).2.bpb.spc = spc.toNat := fun spc => by
    rw [(hvolume spc).1]
    rfl
  refine ⟨?_, (init true true (unchecked 1)).2, ?_, ?_, ?_, ⟨1, ?_⟩, by decide⟩
  · rw [mount_eq, if_pos ⟨hinit 0, hspc 0⟩]
  · rw [mount_eq, hspc, if_neg (by decide)]
    exact congrArg some (Prod.ext (hinit 1) rfl)
  · rw [hspc]
    decide
  · rw [(hvolume 1).1]
    decide
  · change 0x9000 ∈ findAccesses 1 _ 0x9000 [0x42]
    rw [findAccesses, if_neg (by simp [(hvolume 1).2.1]), if_neg (by decide)]
    refine mem_walkVisits.mpr ⟨0, Nat.one_pos, rfl, fun k hk hstop => ?_⟩
    obtain rfl : k = 0 := by omega
    rcases (find_stops _).mp hstop with hend | ⟨p, hp, -⟩
    · cases hend
    · -- the sector of the cluster lies behind the disk
      rw [readableSlots, (hvolume 1).1, (hvolume 1).2.2] at hp
      obtain ⟨hl, hlt⟩ := List.mem_filter.mp (mem_slotsOf.mp hp).1
      rw [show (bpbOf ((uncheckedDisk 1).data 0)).clusterLbas
        ((init true true (unchecked 1)).2.fat^[0] (0x9000%65536)) = [36865] by decide] at hl
      rw [List.mem_singleton.mp hl] at hlt
      cases hlt

end Unchecked

end Vlsmc.TableSafety
