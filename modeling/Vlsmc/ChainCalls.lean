import Vlsmc.ChainLoops
import Vlsmc.DirectoryListings
import Vlsmc.Fat16Readers

/-!
# Walks along a chain

Seven functions of the driver follow the table from cluster to cluster. Most of them test nothing
but the end mark and what they look for, so a table with a cycle can keep them in the loop. Below,
what ends the loops of each, and the searches of a directory, which it ends exactly.
-/

set_option autoImplicit false

namespace Vlsmc.ChainCalls
open Vlsmc.Fat16Layout Vlsmc.Fat16Names Vlsmc.Fat16Volume Vlsmc.Fat16Files Vlsmc.Fat16Geometry
open Vlsmc.Fat16Directory Vlsmc.Fat16Readers Vlsmc.DirectoryScans Vlsmc.DirectoryListings
open Vlsmc.SuccessorChain Vlsmc.ChainLoops Vlsmc.Words

section Functions

variable (fuel : ℕ) (v : Volume)

/-- `find_dir_entry`, with as many rounds of its cluster loop as are given. -/
def findDirEntry (dir : ℕ) (name : List UInt8) : Option (Option Slot) :=
  if v.mounted = false then some none
  else if dir = 0 then some ((v.bpb.rootLbas.findSome? (v.probeSector name)).getD none)
  else
    match walk v.fat inChain (fun c => (v.bpb.clusterLbas c).findSome? (v.probeSector name))
        fuel 0 (dir%65536) with
    | none => none
    | some (.inl r) => some r
    | some (.inr _) => some none

def findFreeDirEntry (dir : ℕ) : Option (Option Slot × Volume) :=
  if v.mounted = false then some (none, v)
  else if dir = 0 then some (v.bpb.rootLbas.findSome? v.freeInSector, v)
  else
    match walk v.fat inChain (fun c => (v.bpb.clusterLbas c).findSome? v.freeInSector)
        fuel (dir%65536) (dir%65536) with
    | none => none
    | some (.inl p) => some (some p, v)
    | some (.inr prev) => some (v.extendDir prev)

def fat16Readdir (dir maxEntries : ℕ) : Option (Option (List VfsDirEntry)) :=
  if v.mounted = false then some none
  else if dir = 0 then some (some (listSectors v maxEntries v.bpb.rootLbas []).2)
  else (listClusters v maxEntries fuel (dir%65536) []).map some

def readFile (name : List UInt8) (maxSize : ℕ) : Option (ℤ × List UInt8) :=
  if v.mounted = false then some (-1, [])
  else
    match foundEntry v name with
    | none => some (-1, [])
    | some e => fileLoop v e.fileSize.toNat maxSize fuel e.cluster []

def readFileOffset (name : List UInt8) (offset size : ℕ) : Option (ℤ × List UInt8) :=
  if v.mounted = false then some (-1, [])
  else
    match findDirEntry fuel v 0 name with
    | none => none
    | some none => some (-1, [])
    | some (some p) =>
      let e := v.loadEntry p
      if e.fileSize.toNat ≤ offset then some (0, [])
      else
        let size := if e.fileSize.toNat < u32 (offset+size) then e.fileSize.toNat-offset else size
        let clusterSize := v.bpb.spc*512
        match skipClusters v (offset/clusterSize) e.cluster with
        | none => some (-1, [])
        | some c => offsetLoop v size fuel c [] (offset%clusterSize)

def readEntry (e : DirEntry) (offset size : ℕ) : Option (ℤ × List UInt8) :=
  if e.fileSize.toNat ≤ offset then some (0, [])
  else
    let want := if e.fileSize.toNat < u32 (offset+size) then e.fileSize.toNat-offset else size
    match seekLoop v offset fuel e.cluster 0 with
    | none => none
    | some (c, cur) =>
      if inChain c then readLoop v offset want fuel c [] cur else some (0, [])

def fat16Read (vn : Vnode) (offset size : ℕ) : Option (ℤ × List UInt8) :=
  if v.mounted = false then some (-1, [])
  else if vn.type ≠ .file then some (-1, [])
  else
    match vn.nodeData with
    | none => some (-1, [])
    | some (name, parent) =>
      match findDirEntry fuel v parent name with
      | none => none
      | some none => some (-1, [])
      | some (some p) => readEntry fuel v (v.loadEntry p) offset size

/-- What `stat_file` prints. -/
structure FileReport where
  fname : List UInt8
  size : ℕ
  cluster : ℕ
  lba : ℕ
  attributes : List Char
  modified : ℕ × ℕ × ℕ × ℕ × ℕ × ℕ
  clusters : ℕ
  bytes : ℤ

def attributeLetters (a : UInt8) : List Char :=
  (if a &&& 0x01 ≠ 0 then ['R'] else [])++(if a &&& 0x02 ≠ 0 then ['H'] else [])++
  (if a &&& 0x04 ≠ 0 then ['S'] else [])++(if a &&& attrDirectory ≠ 0 then ['D'] else [])++
  (if a &&& attrArchive ≠ 0 then ['A'] else [])

/-- `chain_len`. -/
def chainLength : ℕ → ℕ → ℕ → Option ℕ
  | 0, _, _ => none
  | fuel+1, c, n => if inChain c then chainLength fuel (v.fat c) (n+1) else some n

/-- `stat_file`: the report, or `some none` when there is none. -/
def statFile (name : List UInt8) : Option (Option FileReport) :=
  if v.mounted = false then some none
  else
    match findDirEntry fuel v 0 name with
    | none => none
    | some none => some none
    | some (some p) =>
      let e := v.loadEntry p
      let t := e.time.toNat
      let d := e.date.toNat
      match chainLength v fuel e.cluster 0 with
      | none => none
      | some n => some (some {
          fname := cleanFat e
          size := e.fileSize.toNat
          cluster := e.cluster
          lba := v.bpb.clusterToLba e.cluster
          attributes := attributeLetters e.attributes
          modified := (1980+d/512, d/32%16, d%32, t/2048, t/32%64, t%32*2)
          clusters := n
          bytes := toInt32 (u32 (n*v.bpb.spc*512)) })

/-- With the rounds of the driver's model these are its functions. -/
theorem rounds_of_model (dir maxEntries : ℕ) (name : List UInt8) (size : ℕ) :
    findDirEntry chainFuel v dir name = v.findDirEntry dir name ∧
    findFreeDirEntry chainFuel v dir = v.findFreeDirEntry dir ∧
    fat16Readdir (readdirFuel maxEntries) v dir maxEntries =
      DirectoryListings.fat16Readdir v dir maxEntries ∧
    readFile readFuel v name size = Fat16Readers.readFile v name size ∧
    readEntry readFuel v = Fat16Files.readEntry v :=
  ⟨rfl, rfl, rfl, rfl, rfl⟩

end Functions

/-- The functions that walk along a chain. -/
inductive Call
  | findDirEntry (dir : ℕ) (name : List UInt8)
  | findFreeDirEntry (dir : ℕ)
  | readdir (dir maxEntries : ℕ)
  | readFile (name : List UInt8) (maxSize : ℕ)
  | readFileOffset (name : List UInt8) (offset size : ℕ)
  | read (vn : Vnode) (offset size : ℕ)
  | statFile (name : List UInt8)

/-- The call returns after some number of rounds. -/
def Call.Returns (v : Volume) : Call → Prop
  | .findDirEntry dir name => ∃ fuel r, ChainCalls.findDirEntry fuel v dir name = some r
  | .findFreeDirEntry dir => ∃ fuel r, ChainCalls.findFreeDirEntry fuel v dir = some r
  | .readdir dir maxEntries => ∃ fuel r, fat16Readdir fuel v dir maxEntries = some r
  | .readFile name maxSize => ∃ fuel r, ChainCalls.readFile fuel v name maxSize = some r
  | .readFileOffset name offset size =>
    ∃ fuel r, ChainCalls.readFileOffset fuel v name offset size = some r
  | .read vn offset size => ∃ fuel r, fat16Read fuel v vn offset size = some r
  | .statFile name => ∃ fuel r, ChainCalls.statFile fuel v name = some r

/-- The buffer of the caller, with room for one sector more, lies in the address space. -/
def Call.Buffered : Call → Prop
  | .readFile _ maxSize => maxSize+512 ≤ 4294967296
  | .readFileOffset _ _ size => size+512 ≤ 4294967296
  | .read _ _ size => size+512 ≤ 4294967296
  | _ => True

section Conditions

variable (v : Volume)

/-- The chain leads to a number that is no cluster. -/
def ChainEnds (c : ℕ) : Prop := ∃ n, inChain (v.fat^[n] c) = false

/-- The slots of a cluster, in the sectors that can be read. -/
def readableSlots (c : ℕ) : List Slot :=
  slotsOf ((v.bpb.clusterLbas c).filter fun lba => lba < v.disk.size)

/-- The slots of the first clusters of a chain. -/
def walkedSlots : ℕ → ℕ → List Slot
  | 0, _ => []
  | n+1, c => readableSlots v c++walkedSlots n (v.fat c)

/-- The sectors of a chain, one after another. -/
def chainSector (c k : ℕ) : ℕ := u32 (v.bpb.clusterToLba (v.fat^[k/v.bpb.spc] c)+k%v.bpb.spc)

/-- The search for the name meets an end slot or the name. -/
def FindReturns (dir : ℕ) (name : List UInt8) : Prop :=
  v.mounted = false ∨ dir = 0 ∨ ChainEnds v (dir%65536) ∨
    ∃ n, ∃ p ∈ readableSlots v (v.fat^[n] (dir%65536)),
      (v.entryAt p).isEnd ∨ Matches v name p

end Conditions

/-- What ends the loops of the call. -/
def Call.Bounded (v : Volume) : Call → Prop
  | .findDirEntry dir name => FindReturns v dir name
  | .findFreeDirEntry dir => v.mounted = false ∨ dir = 0 ∨ ChainEnds v (dir%65536) ∨
      ∃ n, ∃ p ∈ readableSlots v (v.fat^[n] (dir%65536)),
        (v.entryAt p).isEnd ∨ (v.entryAt p).isDeleted
  | .readdir dir maxEntries => v.mounted = false ∨ dir = 0 ∨ ChainEnds v (dir%65536) ∨
      ∃ n, reachesEnd v (walkedSlots v n (dir%65536)) = true ∨
        maxEntries ≤ (records v (walkedSlots v n (dir%65536))).length
  | .readFile name maxSize => v.mounted = false ∨ ∀ e, foundEntry v name = some e →
      ChainEnds v e.cluster ∨ maxSize ≤ e.fileSize.toNat ∨
        ∃ k, 512*k < e.fileSize.toNat ∧ v.disk.size ≤ chainSector v e.cluster k
  | .readFileOffset _ _ _ => True
  | .read vn offset _ => v.mounted = false ∨ vn.type ≠ .file ∨ ∀ name parent,
      vn.nodeData = some (name, parent) → FindReturns v parent name ∧
        ∀ p, v.findDirEntry parent name = some (some p) → (v.loadEntry p).fileSize.toNat ≤ offset ∨ ChainEnds v (v.loadEntry p).cluster ∨
            offset < 4294967296-Nat.gcd (v.bpb.spc*512) 4294967296
  | .statFile name => v.mounted = false ∨ ∀ p, v.findDirEntry 0 name = some (some p) →
      ChainEnds v (v.loadEntry p).cluster

section Searches

variable {v : Volume} {c : ℕ}

theorem chainEnds_next (h : inChain c = true) : ChainEnds v c ↔ ChainEnds v (v.fat c) := by
  constructor
  · rintro ⟨n, hn⟩
    cases n with
    | zero =>
      rw [show v.fat^[0] c = c from rfl, h] at hn
      cases hn
    | succ n => exact ⟨n, hn⟩
  · exact fun ⟨n, hn⟩ => ⟨n+1, hn⟩

/-- A scan over sectors, those that cannot be read left out, is one over slots. -/
theorem scan_slots {γ : Type*} (f : Sector → ℕ → ℕ → Option γ) (L : List ℕ) :
    (L.findSome? fun lba =>
      match v.disk.read lba with
      | none => none
      | some s => (List.range entriesPerSector).findSome? (f s lba)) =
    (slotsOf (L.filter fun lba => lba < v.disk.size)).findSome? fun p =>
      f (v.disk.data p.1) p.1 p.2 := by
  induction L with
  | nil => rfl
  | cons lba L ih =>
    rw [List.findSome?_cons, ih]
    by_cases hlt : lba < v.disk.size
    · have hslots : slotsOf (lba::L.filter fun lba => lba < v.disk.size) =
          (List.range entriesPerSector).map (fun i => (lba, i))++
            slotsOf (L.filter fun lba => lba < v.disk.size) := List.flatMap_cons
      rw [List.filter_cons_of_pos (by simpa using hlt), hslots, List.findSome?_append,
        List.findSome?_map, Disk.read, if_pos hlt]
      dsimp only
      cases hs : (List.range entriesPerSector).findSome? (f (v.disk.data lba) lba) with
      | none =>
        have hs' : (List.range entriesPerSector).findSome? ((fun p : Slot =>
            f (v.disk.data p.1) p.1 p.2) ∘ fun i => (lba, i)) = none := hs
        rw [hs']
        rfl
      | some r =>
        have hs' : (List.range entriesPerSector).findSome? ((fun p : Slot =>
            f (v.disk.data p.1) p.1 p.2) ∘ fun i => (lba, i)) = some r := hs
        rw [hs']
        rfl
    · rw [List.filter_cons_of_neg (by simpa using hlt), Disk.read, if_neg hlt]

theorem scan_isSome {γ : Type*} (f : Sector → ℕ → ℕ → Option γ) (L : List ℕ) :
    (L.findSome? fun lba =>
      match v.disk.read lba with
      | none => none
      | some s => (List.range entriesPerSector).findSome? (f s lba)).isSome = true ↔
    ∃ p ∈ slotsOf (L.filter fun lba => lba < v.disk.size),
      (f (v.disk.data p.1) p.1 p.2).isSome = true := by
  rw [scan_slots, List.findSome?_isSome_iff]

theorem find_stops (name : List UInt8) : Stops inChain
      (fun c => (v.bpb.clusterLbas c).findSome? (v.probeSector name)) c ↔
    inChain c = false ∨ ∃ p ∈ readableSlots v c, (v.entryAt p).isEnd ∨ Matches v name p := by
  apply or_congr_right
  refine (scan_isSome (Volume.probeEntry name) _).trans ?_
  apply exists_congr
  intro p
  apply and_congr_right
  intro _
  have hprobe := probeAt_matches (v := v) name p
  change Volume.probeEntry name (v.disk.data p.1) p.1 p.2 = _ at hprobe
  rw [hprobe]
  split_ifs with h1 h2
  · simp [h1]
  · simp [h2]
  · simp [h1, h2]

theorem free_stops : Stops inChain
      (fun c => (v.bpb.clusterLbas c).findSome? v.freeInSector) c ↔
    inChain c = false ∨
      ∃ p ∈ readableSlots v c, (v.entryAt p).isEnd ∨ (v.entryAt p).isDeleted := by
  apply or_congr_right
  refine (scan_isSome Volume.freeEntry _).trans ?_
  apply exists_congr
  intro p
  apply and_congr_right
  intro _
  have hent : getEntry (v.disk.data p.1) p.2 = v.entryAt p := rfl
  rw [Volume.freeEntry, hent]
  split_ifs with h <;> simp [h]

/-- Two calls of which one returns, with enough fuel, when the other does. -/
theorem returns_congr {α β : Type} {g : ℕ → Option α} {w : ℕ → Option β}
    (h : ∀ fuel, (g fuel).isSome = (w fuel).isSome) :
    (∃ fuel r, g fuel = some r) ↔ ∃ fuel r, w fuel = some r := by
  apply exists_congr
  intro fuel
  rw [← Option.isSome_iff_exists, ← Option.isSome_iff_exists, h]

/-- The search of a subdirectory is its walk. -/
theorem find_returns_iff (dir : ℕ) (name : List UInt8) :
    (∃ fuel r, findDirEntry fuel v dir name = some r) ↔ FindReturns v dir name := by
  by_cases hm : v.mounted = false
  · exact iff_of_true ⟨0, none, if_pos hm⟩ (Or.inl hm)
  by_cases hd : dir = 0
  · exact iff_of_true ⟨0, _, (if_neg hm).trans (if_pos hd)⟩ (Or.inr (Or.inl hd))
  have hwalk := @walk_returns_iff _ _ v.fat inChain
    (fun c => (v.bpb.clusterLbas c).findSome? (v.probeSector name)) 0 (dir%65536)
  simp only [find_stops, exists_or] at hwalk
  rw [FindReturns, or_iff_right hm, or_iff_right hd, ChainEnds, ← hwalk]
  apply returns_congr
  intro fuel
  rw [findDirEntry, if_neg hm, if_neg hd]
  split
  · next hnone => rw [hnone, Option.isSome_none, Option.isSome_none]
  · next x hx => rw [hx, Option.isSome_some, Option.isSome_some]
  · next x hx => rw [hx, Option.isSome_some, Option.isSome_some]

theorem free_returns_iff (dir : ℕ) : (Call.findFreeDirEntry dir).Returns v ↔
    (Call.findFreeDirEntry dir).Bounded v := by
  change (∃ fuel r, findFreeDirEntry fuel v dir = some r) ↔ _
  by_cases hm : v.mounted = false
  · exact iff_of_true ⟨0, _, if_pos hm⟩ (Or.inl hm)
  by_cases hd : dir = 0
  · exact iff_of_true ⟨0, _, (if_neg hm).trans (if_pos hd)⟩ (Or.inr (Or.inl hd))
  have hwalk := @walk_returns_iff _ _ v.fat inChain
    (fun c => (v.bpb.clusterLbas c).findSome? v.freeInSector) (dir%65536) (dir%65536)
  simp only [free_stops, exists_or] at hwalk
  rw [Call.Bounded, or_iff_right hm, or_iff_right hd, ChainEnds, ← hwalk]
  apply returns_congr
  intro fuel
  rw [findFreeDirEntry, if_neg hm, if_neg hd]
  split
  · next hnone => rw [hnone, Option.isSome_none, Option.isSome_none]
  · next x hx => rw [hx, Option.isSome_some, Option.isSome_some]
  · next x hx => rw [hx, Option.isSome_some, Option.isSome_some]

theorem inChain_lt {x : ℕ} (h : inChain x = true) : x < 65536 := by
  unfold inChain at h
  simp at h
  omega

theorem find_mono {fuel fuel' dir : ℕ} {name : List UInt8} {r : Option Slot}
    (h : findDirEntry fuel v dir name = some r) (hle : fuel ≤ fuel') :
    findDirEntry fuel' v dir name = some r := by
  unfold findDirEntry at h ⊢
  split_ifs at h ⊢
  · exact h
  · exact h
  · cases hx : walk v.fat inChain
        (fun c => (v.bpb.clusterLbas c).findSome? (v.probeSector name)) fuel 0 (dir%65536) with
    | none =>
      rw [hx] at h
      cases h
    | some x =>
      rw [hx] at h
      rw [walk_mono hx hle]
      exact h

/-- The rounds of the model are enough for every search that returns. -/
theorem find_model {fuel dir : ℕ} {name : List UInt8} {r : Option Slot}
    (h : findDirEntry fuel v dir name = some r) : v.findDirEntry dir name = some r := by
  change findDirEntry chainFuel v dir name = some r
  unfold findDirEntry at h ⊢
  split_ifs at h ⊢ with hm hd
  · exact h
  · exact h
  · obtain ⟨x, hx⟩ : ∃ x, walk v.fat inChain
        (fun c => (v.bpb.clusterLbas c).findSome? (v.probeSector name)) fuel 0 (dir%65536) =
          some x := by
      split at h
      · cases h
      · next x hx => exact ⟨_, hx⟩
      · next x hx => exact ⟨_, hx⟩
    obtain ⟨r', hr'⟩ := (walk_bound fun _ => inChain_lt).mp ⟨fuel, x, hx⟩
    have hsame : r' = x := by
      have h1 := walk_mono hr' (Nat.le_max_left (65536+1) fuel)
      rw [walk_mono hx (Nat.le_max_right (65536+1) fuel)] at h1
      exact (Option.some.inj h1).symm
    rw [hx] at h
    rw [chainFuel, hr', hsame]
    exact h

end Searches

end Vlsmc.ChainCalls
