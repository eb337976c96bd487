import Vlsmc.ChainCalls

/-!
# Listing a directory with any table

`fat16_readdir` leaves its cluster loop at an end slot, with a full buffer or at the end of the
chain, and without one of these it does not leave it.
-/

set_option autoImplicit false

namespace Vlsmc.ChainListings
open Vlsmc.Fat16Layout Vlsmc.Fat16Volume Vlsmc.Fat16Directory Vlsmc.DirectoryScans
open Vlsmc.DirectoryListings Vlsmc.ChainLoops Vlsmc.ChainCalls

variable {v : Volume} {maxEntries : ℕ}

/-- How a loop over slots ends: with their records, at an end slot that it meets with room left, or
with a full buffer. -/
def Passes (v : Volume) (maxEntries : ℕ) (l : List Slot) (out : List VfsDirEntry)
    (r : Bool × List VfsDirEntry) : Prop :=
  (reachesEnd v l = false ∧ out.length+(records v l).length < maxEntries ∧
    r = (false, out++records v l)) ∨
  (reachesEnd v l = true ∧ out.length+(records v l).length < maxEntries ∧ r.1 = true) ∨
  (maxEntries ≤ out.length+(records v l).length ∧ r.1 = false ∧ maxEntries ≤ r.2.length)

theorem passes_nil (out : List VfsDirEntry) : Passes v maxEntries [] out (false, out) := by
  by_cases h : out.length < maxEntries
  · exact Or.inl ⟨rfl, h, by simp [records]⟩
  · have hle := Nat.le_of_not_lt h
    exact Or.inr (Or.inr ⟨Nat.le_add_right_of_le hle, rfl, hle⟩)

/-- Nothing more happens once the buffer is full. -/
theorem passes_full {l : List Slot} {out : List VfsDirEntry} (h : maxEntries ≤ out.length) :
    Passes v maxEntries l out (false, out) :=
  Or.inr (Or.inr ⟨Nat.le_add_right_of_le h, rfl, h⟩)

theorem records_length_append (l m : List Slot) :
    (records v l).length ≤ (records v (l++m)).length := by
  rw [records_append, List.length_append]
  exact Nat.le_add_right _ _

theorem passes_append {l m : List Slot} {out out' : List VfsDirEntry}
    {r : Bool × List VfsDirEntry} (hl : Passes v maxEntries l out (false, out'))
    (hm : Passes v maxEntries m out' r) : Passes v maxEntries (l++m) out r := by
  rcases hl with ⟨hend, hlt, hout⟩ | ⟨-, -, hstop⟩ | ⟨hlong, -, hfull⟩
  · obtain rfl : out' = out++records v l := congrArg Prod.snd hout
    have hrec : records v (l++m) = records v l++records v m := by
      rw [records_append, hend]
      rfl
    have hreach : reachesEnd v (l++m) = reachesEnd v m := by
      rw [reachesEnd_append, hend, Bool.false_or]
    unfold Passes at hm ⊢
    rwa [hreach, hrec, List.length_append, ← Nat.add_assoc, ← List.length_append, ← List.append_assoc]
  · cases hstop
  · -- the buffer is full, and `m` leaves it so
    have hmore := records_length_append (v := v) l m
    dsimp only at hfull
    rcases hm with ⟨-, hlt, -⟩ | ⟨-, hlt, -⟩ | ⟨-, hr⟩
    · omega
    · omega
    · exact Or.inr (Or.inr ⟨by omega, hr⟩)

theorem passes_end {l m : List Slot} {out out' : List VfsDirEntry}
    (hl : Passes v maxEntries l out (true, out')) : Passes v maxEntries (l++m) out (true, out') := by
  rcases hl with ⟨-, -, hout⟩ | ⟨hend, hlt, -⟩ | ⟨-, hgo, -⟩
  · cases hout
  · refine Or.inr (Or.inl ⟨by rw [reachesEnd_append, hend, Bool.true_or], ?_, rfl⟩)
    rw [records_append, hend]
    simpa using hlt
  · cases hgo

theorem listEntries_passes (lba n i : ℕ) (out : List VfsDirEntry) :
    Passes v maxEntries ((List.range' i n).map fun j => (lba, j)) out
      (listEntries maxEntries (v.disk.data lba) n i out) := by
  induction n generalizing i out with
  | zero => exact passes_nil out
  | succ n ih =>
    rw [listEntries_round, List.range'_succ, List.map_cons]
    split_ifs with hlt hend hs
    · refine Or.inr (Or.inl ⟨by simp [reachesEnd_cons, hend], ?_, rfl⟩)
      rw [records_cons, if_pos hend]
      simpa using hlt
    · have hrec : records v [(lba, i)] = [recordOf (v.entryAt (lba, i))] := by
        rw [records_cons, if_neg hend, if_pos hs]
        rfl
      have hone : Passes v maxEntries [(lba, i)] out
          (false, out++[recordOf (v.entryAt (lba, i))]) := by
        unfold Passes
        rw [hrec]
        by_cases hroom : out.length+1 < maxEntries
        · exact Or.inl ⟨by simp [reachesEnd, hend], hroom, rfl⟩
        · have hle := Nat.le_of_not_lt hroom
          exact Or.inr (Or.inr ⟨hle, rfl, by simpa using hle⟩)
      exact passes_append hone (ih (i+1) _)
    · have hrec : records v [(lba, i)] = [] := by
        rw [records_cons, if_neg hend, if_neg hs]
        rfl
      have hone : Passes v maxEntries [(lba, i)] out (false, out) := by
        refine Or.inl ⟨by simp [reachesEnd, hend], ?_, ?_⟩
        · rwa [hrec]
        · rw [hrec, List.append_nil]
      exact passes_append hone (ih (i+1) out)
    · exact passes_full (Nat.le_of_not_lt hlt)

theorem listSectors_passes (L : List ℕ) (out : List VfsDirEntry) :
    Passes v maxEntries (slotsOf (L.filter fun lba => lba < v.disk.size)) out
      (listSectors v maxEntries L out) := by
  induction L generalizing out with
  | nil => exact passes_nil out
  | cons lba L ih =>
    rw [listSectors]
    split_ifs with hlt
    · by_cases hread : lba < v.disk.size
      · have hslots : slotsOf ((lba::L).filter fun lba => lba < v.disk.size) =
            ((List.range' 0 entriesPerSector).map fun j => (lba, j))++
              slotsOf (L.filter fun lba => lba < v.disk.size) := by
          rw [List.filter_cons_of_pos (by simpa using hread), slotsOf, List.flatMap_cons,
            List.range_eq_range']
          rfl
        have hentries : Passes v maxEntries _ out _ :=
          listEntries_passes lba entriesPerSector 0 out
        rw [hslots, Disk.read, if_pos hread]
        dsimp only
        cases hr : listEntries maxEntries (v.disk.data lba) entriesPerSector 0 out with
        | mk stopped out' =>
          rw [hr] at hentries
          cases stopped with
          | true => exact passes_end hentries
          | false => exact passes_append hentries (ih out')
      · rw [List.filter_cons_of_neg (by simpa using hread), Disk.read, if_neg hread]
        exact ih out
    · exact passes_full (Nat.le_of_not_lt hlt)

/-- The cluster loop of `fat16_readdir`. -/
def listLoop (v : Volume) (maxEntries : ℕ) : Loop ℕ (List VfsDirEntry) (List VfsDirEntry) where
  next := v.fat
  go := fun c out => inChain c ∧ out.length < maxEntries
  body := fun c out =>
    match listSectors v maxEntries (v.bpb.clusterLbas c) out with
    | (true, out) => .inl out
    | (false, out) => .inr out
  result := fun _ out => out

theorem listLoop_run (fuel c : ℕ) (out : List VfsDirEntry) :
    listClusters v maxEntries fuel c out = (listLoop v maxEntries).run fuel c out := by
  induction fuel generalizing c out with
  | zero => rfl
  | succ fuel ih =>
    rw [listClusters, Loop.run]
    by_cases hgo : inChain c ∧ out.length < maxEntries
    · rw [if_pos hgo, if_pos (show (listLoop v maxEntries).go c out = true from decide_eq_true hgo)]
      dsimp only [listLoop]
      cases listSectors v maxEntries (v.bpb.clusterLbas c) out with
      | mk stopped out' =>
        cases stopped with
        | true => rfl
        | false => exact ih (v.fat c) out'
    · rw [if_neg hgo, if_neg (by simpa [listLoop] using hgo)]
      rfl

/-- The first clusters have an end slot, or enough records. -/
def ListStops (v : Volume) (maxEntries n c : ℕ) (out : List VfsDirEntry) : Prop :=
  reachesEnd v (walkedSlots v n c) = true ∨
    maxEntries ≤ out.length+(records v (walkedSlots v n c)).length

theorem passes_room {l : List Slot} {out out' : List VfsDirEntry}
    (hp : Passes v maxEntries l out (false, out')) (hlt : out'.length < maxEntries) :
    reachesEnd v l = false ∧ out' = out++records v l := by
  rcases hp with ⟨hend, -, hout⟩ | ⟨-, -, hstop⟩ | ⟨-, -, hfull⟩
  · exact ⟨hend, congrArg Prod.snd hout⟩
  · cases hstop
  · exact absurd hfull (Nat.not_le.mpr hlt)

/-- Over a cluster that passes, the slots and the records are those of the rest. -/
theorem walked_next {n c : ℕ} {out out' : List VfsDirEntry}
    (hp : Passes v maxEntries (readableSlots v c) out (false, out'))
    (hlt : out'.length < maxEntries) :
    reachesEnd v (walkedSlots v (n+1) c) = reachesEnd v (walkedSlots v n (v.fat c)) ∧
      out.length+(records v (walkedSlots v (n+1) c)).length =
        out'.length+(records v (walkedSlots v n (v.fat c))).length := by
  obtain ⟨hend, rfl⟩ := passes_room hp hlt
  rw [walkedSlots, reachesEnd_append, records_append, hend, List.length_append, List.length_append,
    Bool.false_or, if_neg (by decide), Nat.add_assoc]
  exact ⟨rfl, rfl⟩

theorem listStops_next {n c : ℕ} {out out' : List VfsDirEntry}
    (hp : Passes v maxEntries (readableSlots v c) out (false, out'))
    (hlt : out'.length < maxEntries) :
    ListStops v maxEntries (n+1) c out ↔ ListStops v maxEntries n (v.fat c) out' := by
  unfold ListStops
  rw [(walked_next hp hlt).1, (walked_next hp hlt).2]

/-- Further clusters only add slots and records. -/
theorem listStops_mono {n m c : ℕ} {out : List VfsDirEntry} (h : ListStops v maxEntries n c out)
    (hle : n ≤ m) : ListStops v maxEntries m c out := by
  have hsplit : ∃ l, walkedSlots v m c = walkedSlots v n c++l := by
    clear h
    induction n generalizing m c with
    | zero => exact ⟨walkedSlots v m c, rfl⟩
    | succ n ih =>
      obtain ⟨m, rfl⟩ : ∃ k, m = k+1 := ⟨m-1, by omega⟩
      obtain ⟨l, hl⟩ := @ih m (v.fat c) (by omega)
      exact ⟨l, by rw [walkedSlots, walkedSlots, hl, List.append_assoc]⟩
  obtain ⟨l, hl⟩ := hsplit
  unfold ListStops
  rw [hl, reachesEnd_append]
  rcases h with hend | hfull
  · exact Or.inl (by rw [hend, Bool.true_or])
  · have hmore := records_length_append (v := v) (walkedSlots v n c) l
    exact Or.inr (by omega)

theorem listStops_one {c : ℕ} {out : List VfsDirEntry} {r : Bool × List VfsDirEntry}
    (hp : Passes v maxEntries (readableSlots v c) out r) (h : r.1 = true ∨ maxEntries ≤ r.2.length) :
    ListStops v maxEntries 1 c out := by
  unfold ListStops
  rw [walkedSlots, walkedSlots, List.append_nil]
  rcases hp with ⟨-, hlt, rfl⟩ | ⟨hend, -, -⟩ | ⟨hlong, -, -⟩
  · simp at h
    omega
  · exact Or.inl hend
  · exact Or.inr hlong

theorem list_returns_iff {c : ℕ} {out : List VfsDirEntry} :
    (listLoop v maxEntries).Returns c out ↔
      ChainEnds v c ∨ ∃ n, ListStops v maxEntries n c out := by
  have hpasses : ∀ c out, Passes v maxEntries (readableSlots v c) out
      (listSectors v maxEntries (v.bpb.clusterLbas c) out) := fun c out =>
    listSectors_passes (v.bpb.clusterLbas c) out
  constructor
  · apply Loop.returns_rec
    · intro c out hgo
      by_cases hc : inChain c = true
      · refine Or.inr ⟨0, Or.inr ?_⟩
        have hfull : ¬ out.length < maxEntries := fun hlt => by simp [listLoop, hc, hlt] at hgo
        omega
      · exact Or.inl ⟨0, by simpa using hc⟩
    · intro c out r _ hb
      dsimp only [listLoop] at hb
      split at hb
      · next out' hr => exact Or.inr ⟨1, listStops_one (hpasses c out) (Or.inl (by rw [hr]))⟩
      · cases hb
    · intro c out out' hgo hb hrest
      have hc : inChain c = true := by
        simp [listLoop] at hgo
        exact hgo.1
      dsimp only [listLoop] at hb
      split at hb
      · cases hb
      · next out'' hr =>
        obtain rfl := Sum.inr.inj hb
        have hp := hpasses c out
        by_cases hlt : out''.length < maxEntries
        · rw [hr] at hp
          rcases hrest with hends | ⟨n, hn⟩
          · exact Or.inl ((chainEnds_next hc).mpr hends)
          · exact Or.inr ⟨n+1, (listStops_next hp hlt).mpr hn⟩
        · have hfull : maxEntries ≤ out''.length := Nat.le_of_not_lt hlt
          rw [hr] at hp
          exact Or.inr ⟨1, listStops_one hp (Or.inr hfull)⟩
  · rintro (⟨n, hn⟩ | ⟨n, hn⟩)
    · exact @Loop.returns_chain _ _ _ _ c out (fun c => inChain c = false)
        (fun c out hc => by simp [listLoop, hc]) n hn
    · induction n generalizing c out with
      | zero =>
        rcases hn with hend | hfull
        · cases hend
        · apply Loop.returns_stop
          have hle : maxEntries ≤ out.length := hfull
          simp [listLoop, hle]
      | succ n ih =>
        have hp := hpasses c out
        by_cases hgo : (listLoop v maxEntries).go c out = true
        · cases hr : listSectors v maxEntries (v.bpb.clusterLbas c) out with
          | mk stopped out' =>
            rw [hr] at hp
            cases stopped with
            | true => exact Loop.returns_early (r := out') (by simp only [listLoop, hr])
            | false =>
              have hb : (listLoop v maxEntries).body c out = .inr out' := by
                simp only [listLoop, hr]
              apply (Loop.returns_next hgo hb).mpr
              by_cases hlt : out'.length < maxEntries
              · exact ih ((listStops_next hp hlt).mp hn)
              · apply Loop.returns_stop
                simp [listLoop, Nat.le_of_not_lt hlt]
        · exact Loop.returns_stop (by simpa using hgo)

end Vlsmc.ChainListings
