import Vlsmc.TableBounds
import Vlsmc.VolumeWrites

/-!
# Where the search for a slot ends

`find_free_dir_entry` passes the clusters of a directory in which no slot is free. It ends at the
first free slot, or at the end of the chain, where it extends the directory.
-/

set_option autoImplicit false

namespace Vlsmc.FreeSlots
open Vlsmc.Fat16Layout Vlsmc.Fat16Volume Vlsmc.Fat16Geometry Vlsmc.Fat16Directory
open Vlsmc.SuccessorChain Vlsmc.ChainLoops Vlsmc.ChainCalls Vlsmc.DirectoryEdits Vlsmc.FirstFit
open Vlsmc.TableBounds Vlsmc.VolumeWrites

section Definitions

variable (v : Volume)

/-- The search goes through that many clusters of the directory. -/
def Passed (dir n : ℕ) : Prop := ∀ k < n, ¬ FreeStops v (v.fat^[k] (dir%65536))

/-- The first slot of the list that is free. -/
def firstFree (L : List Slot) : Option Slot :=
  L.find? fun p => (v.entryAt p).isEnd ∨ (v.entryAt p).isDeleted

/-- The slot at which the search ends. -/
def FreeSlot (dir : ℕ) (p : Slot) : Prop :=
  if dir = 0 then firstFree v (slotsOf (v.bpb.rootLbas.filter fun lba => lba < v.disk.size)) = some p
  else ∃ n, Passed v dir n ∧ inChain (v.fat^[n] (dir%65536)) = true ∧
    firstFree v (readableSlots v (v.fat^[n] (dir%65536))) = some p

/-- A subdirectory of that many clusters has no free slot. -/
def Full (dir n : ℕ) : Prop :=
  dir ≠ 0 ∧ Passed v dir n ∧ inChain (v.fat^[n] (dir%65536)) = false

/-- The loops of `find_free_dir_entry`: a slot, or the cluster before the end of the chain. -/
def slotSearch (dir : ℕ) : Option (Slot ⊕ ℕ) :=
  if dir = 0 then (v.bpb.rootLbas.findSome? v.freeInSector).map Sum.inl
  else walk v.fat inChain (fun c => (v.bpb.clusterLbas c).findSome? v.freeInSector)
    chainFuel (dir%65536) (dir%65536)

end Definitions

variable {v : Volume} {dir n prev : ℕ} {p : Slot}

/-- What `find_free_dir_entry` does is decided by its search. -/
theorem findFree_search (hm : v.mounted = true) (dir : ℕ) :
    (v.findFreeDirEntry dir = match slotSearch v dir with
      | none => if dir = 0 then some (none, v) else none
      | some (.inl p) => some (some p, v)
      | some (.inr prev) => some (v.extendDir prev)) ∧
    findFreeEvents v dir = match slotSearch v dir with
      | some (.inr prev) => extendEvents v prev
      | _ => [] := by
  have hmount : ¬ v.mounted = false := by simp [hm]
  rw [Volume.findFreeDirEntry, findFreeEvents, slotSearch, if_neg hmount, if_neg hmount]
  by_cases hd : dir = 0
  · simp only [if_pos hd]
    cases v.bpb.rootLbas.findSome? v.freeInSector <;> simp
  · simp only [if_neg hd]
    cases walk v.fat inChain (fun c => (v.bpb.clusterLbas c).findSome? v.freeInSector)
      chainFuel (dir%65536) (dir%65536) with
    | none => simp
    | some r => cases r <;> simp

/-- A scan over sectors finds the first free slot of those that can be read. -/
theorem scan_firstFree (L : List ℕ) : L.findSome? v.freeInSector =
    firstFree v (slotsOf (L.filter fun lba => lba < v.disk.size)) := by
  refine (scan_slots (v := v) Volume.freeEntry L).trans ?_
  rw [firstFree, List.find?_eq_findSome?_guard]
  congr 1
  ext p
  have hent : getEntry (v.disk.data p.1) p.2 = v.entryAt p := rfl
  rw [Volume.freeEntry, hent]
  simp only [Option.guard, decide_eq_true_eq]

/-- The clusters that the search passes are those before it stops. -/
theorem walk_ends (hpass : Passed v dir n) (hstop : FreeStops v (v.fat^[n] (dir%65536)))
    (hd : dir ≠ 0) : (∃ p, slotSearch v dir = some (.inl p) ∧
        inChain (v.fat^[n] (dir%65536)) = true ∧
        firstFree v (readableSlots v (v.fat^[n] (dir%65536))) = some p) ∨
      inChain (v.fat^[n] (dir%65536)) = false ∧
        slotSearch v dir = some (.inr (v.fat^[n-1] (dir%65536))) := by
  have hstops := fun k => free_stops (v := v) (c := v.fat^[k] (dir%65536))
  have hlive : ∀ x, inChain x = true → x < 65536 := fun _ hx => inChain_lt hx
  obtain ⟨r, hr⟩ : ∃ r, walk v.fat inChain
      (fun c => (v.bpb.clusterLbas c).findSome? v.freeInSector) (65536+1) (dir%65536)
      (dir%65536) = some r :=
    (walk_bound hlive).mp ⟨n+1, walk_within ((hstops n).mpr hstop) (Nat.lt_succ_self n)⟩
  have hend := walk_stop (fun k hk hs => hpass k hk ((hstops k).mp hs)) ((hstops n).mpr hstop) hr
  rw [slotSearch, if_neg hd, show chainFuel = 65536+1 from rfl, hr]
  rcases hend with ⟨p, rfl, hlive, hb⟩ | ⟨hlive, rfl⟩
  · rw [scan_firstFree] at hb
    exact Or.inl ⟨p, rfl, hlive, hb⟩
  · refine Or.inr ⟨hlive, ?_⟩
    cases n <;> rfl

theorem search_ends (hd : dir ≠ 0) {r : Slot ⊕ ℕ} (h : slotSearch v dir = some r) :
    ∃ n, Passed v dir n ∧ FreeStops v (v.fat^[n] (dir%65536)) := by
  rw [slotSearch, if_neg hd] at h
  obtain ⟨n, -, hpass, hend⟩ := walk_result h
  refine ⟨n, fun k hk hs => hpass k hk (free_stops.mpr hs), free_stops.mp ?_⟩
  rcases hend with ⟨b, -, -, hb⟩ | ⟨hlive, -⟩
  · exact Or.inr (by simp [hb])
  · exact Or.inl hlive

theorem firstFree_stops {c : ℕ} (h : firstFree v (readableSlots v c) = some p) :
    FreeStops v c :=
  Or.inr ⟨p, List.mem_of_find?_eq_some h, by simpa using List.find?_some h⟩

theorem freeSlot_iff : FreeSlot v dir p ↔ slotSearch v dir = some (.inl p) := by
  by_cases hd : dir = 0
  · rw [FreeSlot, if_pos hd, slotSearch, if_pos hd, scan_firstFree]
    simp
  · rw [FreeSlot, if_neg hd]
    constructor
    · rintro ⟨n, hpass, hlive, hp⟩
      rcases walk_ends hpass (firstFree_stops hp) hd with ⟨q, hs, -, hq⟩ | ⟨hdead, -⟩
      · rw [hp] at hq
        rw [hs, Option.some.inj hq]
      · rw [hlive] at hdead
        cases hdead
    · intro h
      obtain ⟨n, hpass, hstop⟩ := search_ends hd h
      rcases walk_ends hpass hstop hd with ⟨q, hs, hlive, hq⟩ | ⟨-, hs⟩
      · rw [h] at hs
        rw [← Sum.inl.inj (Option.some.inj hs)] at hq
        exact ⟨n, hpass, hlive, hq⟩
      · rw [h] at hs
        cases hs

theorem full_search (h : Full v dir n) :
    slotSearch v dir = some (.inr (v.fat^[n-1] (dir%65536))) := by
  obtain ⟨hd, hpass, hdead⟩ := h
  rcases walk_ends hpass (Or.inl hdead) hd with ⟨p, -, hlive, -⟩ | ⟨-, hs⟩
  · rw [hdead] at hlive
    cases hlive
  · exact hs

theorem search_full (h : slotSearch v dir = some (.inr prev)) :
    ∃ n, Full v dir n ∧ prev = v.fat^[n-1] (dir%65536) := by
  have hd : dir ≠ 0 := by
    rintro rfl
    rw [slotSearch, if_pos rfl, Option.map_eq_some_iff] at h
    obtain ⟨q, -, he⟩ := h
    cases he
  obtain ⟨n, hpass, hstop⟩ := search_ends hd h
  rcases walk_ends hpass hstop hd with ⟨p, hs, -, -⟩ | ⟨hdead, hs⟩
  · rw [h] at hs
    cases hs
  · rw [h] at hs
    exact ⟨n, ⟨hd, hpass, hdead⟩, Sum.inr.inj (Option.some.inj hs)⟩

theorem forall_full {P : ℕ → Prop} : (∀ n, Full v dir n → P (v.fat^[n-1] (dir%65536))) ↔
    ∀ prev, slotSearch v dir = some (.inr prev) → P prev := by
  constructor
  · intro h prev hs
    obtain ⟨n, hn, rfl⟩ := search_full hs
    exact h n hn
  · intro h n hn
    exact h _ (full_search hn)

/-- A free slot of the root directory lies before the clusters. -/
theorem freeSlot_root (h : FreeSlot v 0 p) : p.1 < v.bpb.dataStartLba := by
  rw [FreeSlot, if_pos rfl] at h
  have hp := mem_slotsOf.mp (List.mem_of_find?_eq_some h)
  exact ((mem_rootLbas _).mp (List.mem_filter.mp hp.1).1).2

end Vlsmc.FreeSlots
