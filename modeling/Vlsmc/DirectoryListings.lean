import Vlsmc.DirectoryScans
import Mathlib.Data.List.Find

/-!
# Listings of a directory

`fat16_readdir` goes over the slots of a directory as `find_dir_entry` does, with its own copies
of the loops and of the filter, and rebuilds the names. A listing has one record for each slot
that a lookup can find, in the same order, and a lookup is a search in the listing.
-/

set_option autoImplicit false

namespace Vlsmc.DirectoryListings
open Vlsmc.Fat16Layout Vlsmc.Fat16Names Vlsmc.Fat16Volume Vlsmc.Fat16Files
open Vlsmc.Fat16Geometry Vlsmc.Fat16Chains Vlsmc.Fat16Directory Vlsmc.DirectoryScans
open Vlsmc.SuccessorChain

/-- `vfs_dir_entry`. The name is what is stored before the terminator. -/
structure VfsDirEntry where
  name : List UInt8
  size : UInt32
  type : UInt8
  attributes : UInt8

/-- The name that a caller reads. -/
def VfsDirEntry.cName (r : VfsDirEntry) : List UInt8 := cString r.name

/-- The record of an entry; `'D'` and `'F'` stand for directories and files. The name is put
together as in `match_filename`. -/
def recordOf (e : DirEntry) : VfsDirEntry where
  name := cleanFat e
  size := e.fileSize
  type := if e.isDirectory then 0x44 else 0x46
  attributes := e.attributes

/-- The entry loop of `fat16_readdir`: whether it left by `goto done`, and the records. -/
def listEntries (maxEntries : ℕ) (s : Sector) : ℕ → ℕ → List VfsDirEntry → Bool × List VfsDirEntry
  | 0, _, out => (false, out)
  | n+1, i, out =>
    if out.length < maxEntries then
      if (getEntry s i).isEnd then (true, out)
      else if (getEntry s i).isDeleted then listEntries maxEntries s n (i+1) out
      else if (getEntry s i).attributes &&& attrLfn ≠ 0 then listEntries maxEntries s n (i+1) out
      else if (getEntry s i).attributes &&& attrVolumeId ≠ 0 then
        listEntries maxEntries s n (i+1) out
      else listEntries maxEntries s n (i+1) (out++[recordOf (getEntry s i)])
    else (false, out)

/-- The sector loop, which passes over sectors that cannot be read. -/
def listSectors (v : Volume) (maxEntries : ℕ) :
    List ℕ → List VfsDirEntry → Bool × List VfsDirEntry
  | [], out => (false, out)
  | lba::L, out =>
    if out.length < maxEntries then
      match v.disk.read lba with
      | none => listSectors v maxEntries L out
      | some s =>
        match listEntries maxEntries s entriesPerSector 0 out with
        | (true, out) => (true, out)
        | (false, out) => listSectors v maxEntries L out
    else (false, out)

/-- The cluster loop. -/
def listClusters (v : Volume) (maxEntries : ℕ) :
    ℕ → ℕ → List VfsDirEntry → Option (List VfsDirEntry)
  | 0, _, _ => none
  | fuel+1, c, out =>
    if inChain c ∧ out.length < maxEntries then
      match listSectors v maxEntries (v.bpb.clusterLbas c) out with
      | (true, out) => some out
      | (false, out) => listClusters v maxEntries fuel (v.fat c) out
    else some out

/-- The cluster loop changes a 16-bit cluster and the number of records. -/
def readdirFuel (maxEntries : ℕ) : ℕ := 65536*(maxEntries+1)+1

/-- `fat16_readdir`: the records, or `some none` for -1. -/
def fat16Readdir (v : Volume) (dir maxEntries : ℕ) : Option (Option (List VfsDirEntry)) :=
  if v.mounted = false then some none
  else if dir = 0 then some (some (listSectors v maxEntries v.bpb.rootLbas []).2)
  else (listClusters v maxEntries (readdirFuel maxEntries) (dir%65536) []).map some

/-- The slot passes the filter that lookups and listings share. -/
def Searched (v : Volume) (p : Slot) : Prop :=
  ¬ (v.entryAt p).isDeleted ∧ (v.entryAt p).attributes &&& attrHiddenMask = 0

instance (v : Volume) (p : Slot) : Decidable (Searched v p) := inferInstanceAs (Decidable (_ ∧ _))

def records (v : Volume) (l : List Slot) : List VfsDirEntry :=
  ((l.takeWhile fun p => ¬ (v.entryAt p).isEnd).filter fun p => Searched v p).map
    fun p => recordOf (v.entryAt p)

def reachesEnd (v : Volume) (l : List Slot) : Bool := l.any fun p => (v.entryAt p).isEnd

section Loops

variable {v : Volume} {maxEntries : ℕ}

/-- A slot can be found under some name, its own, exactly when it passes the filter. -/
theorem searched_iff (p : Slot) : Searched v p ↔ ∃ name, Matches v name p := by
  constructor
  · intro h
    exact ⟨decodedName (v.entryAt p), h.1, h.2, (matchFilename_iff _ _).mpr rfl⟩
  · rintro ⟨name, h⟩
    exact ⟨h.1, h.2.1⟩

theorem records_length (l : List Slot) : (records v l).length ≤ l.length := by
  unfold records
  rw [List.length_map]
  exact (List.length_filter_le _ _).trans (List.takeWhile_sublist _).length_le

theorem records_cons (p : Slot) (l : List Slot) : records v (p::l) =
    if (v.entryAt p).isEnd then []
    else if Searched v p then recordOf (v.entryAt p)::records v l else records v l := by
  unfold records
  by_cases hend : (v.entryAt p).isEnd
  · rw [List.takeWhile_cons_of_neg (by simp [hend]), if_pos hend]
    rfl
  · rw [List.takeWhile_cons_of_pos (by simp [hend]), if_neg hend]
    by_cases hs : Searched v p
    · rw [List.filter_cons_of_pos (by simp [hs]), if_pos hs, List.map_cons]
    · rw [List.filter_cons_of_neg (by simp [hs]), if_neg hs]

/-- Nothing behind an end slot is listed. -/
theorem records_append (l m : List Slot) : records v (l++m) =
    records v l++if reachesEnd v l then [] else records v m := by
  induction l with
  | nil => rfl
  | cons p l ih =>
    rw [List.cons_append, records_cons, records_cons]
    by_cases hend : (v.entryAt p).isEnd
    · rw [if_pos hend, if_pos hend, reachesEnd, List.any_cons]
      simp [hend]
    · have hreach : reachesEnd v (p::l) = reachesEnd v l := by
        simp [reachesEnd, hend]
      rw [if_neg hend, if_neg hend, hreach, ih]
      split_ifs <;> simp

theorem reachesEnd_append (l m : List Slot) :
    reachesEnd v (l++m) = (reachesEnd v l || reachesEnd v m) := List.any_append

/-- The two tests of the source are one test of the four bits. -/
theorem attribute_tests (a : UInt8) :
    (a &&& attrLfn = 0 ∧ a &&& attrVolumeId = 0) ↔ a &&& attrHiddenMask = 0 := by
  constructor
  · exact fun h => h.1
  · exact fun h => ⟨h, ((attributes_masks a).mp h).2.1⟩

/-- One round of the entry loop. -/
theorem listEntries_round (lba n i : ℕ) (out : List VfsDirEntry) :
    listEntries maxEntries (v.disk.data lba) (n+1) i out =
      if out.length < maxEntries then
        if (v.entryAt (lba, i)).isEnd then (true, out)
        else if Searched v (lba, i) then
          listEntries maxEntries (v.disk.data lba) n (i+1) (out++[recordOf (v.entryAt (lba, i))])
        else listEntries maxEntries (v.disk.data lba) n (i+1) out
      else (false, out) := by
  have hent : getEntry (v.disk.data lba) i = v.entryAt (lba, i) := rfl
  rw [listEntries, hent]
  by_cases hs : Searched v (lba, i)
  · have hbits := (attribute_tests _).mpr hs.2
    rw [if_pos hs, if_neg hs.1, if_neg (not_not.mpr hbits.1), if_neg (not_not.mpr hbits.2)]
  · rw [if_neg hs]
    have hor : (v.entryAt (lba, i)).isDeleted ∨
        (v.entryAt (lba, i)).attributes &&& attrLfn ≠ 0 ∨
        (v.entryAt (lba, i)).attributes &&& attrVolumeId ≠ 0 := by
      by_contra hno
      rw [not_or, not_or, not_not, not_not] at hno
      exact hs ⟨hno.1, (attribute_tests _).mp hno.2⟩
    split_ifs with h0 h1 h2 h3 h4
    · rfl
    · rfl
    · rfl
    · rfl
    · exact absurd hor (by simp [h2, not_not.mp h3, not_not.mp h4])
    · rfl

theorem reachesEnd_cons (p : Slot) (l : List Slot) :
    reachesEnd v (p::l) = (decide (v.entryAt p).isEnd || reachesEnd v l) := List.any_cons

/-- The entry loop, when there is room for all entries. -/
theorem listEntries_records (lba n i : ℕ) (out : List VfsDirEntry)
    (hroom : out.length+n ≤ maxEntries) :
    listEntries maxEntries (v.disk.data lba) n i out =
      (reachesEnd v ((List.range' i n).map fun j => (lba, j)),
        out++records v ((List.range' i n).map fun j => (lba, j))) := by
  induction n generalizing i out with
  | zero => simp [listEntries, records, reachesEnd]
  | succ n ih =>
    rw [listEntries_round, if_pos (by omega), List.range'_succ, List.map_cons, records_cons,
      reachesEnd_cons]
    by_cases hend : (v.entryAt (lba, i)).isEnd
    · simp [hend]
    · rw [if_neg hend, if_neg hend]
      by_cases hs : Searched v (lba, i)
      · rw [if_pos hs, if_pos hs, ih (i+1) _ (by simp; omega), List.append_assoc]
        simp [hend]
      · rw [if_neg hs, if_neg hs, ih (i+1) out (by omega)]
        simp [hend]

/-- The sector loop. -/
theorem listSectors_records (L : List ℕ) (out : List VfsDirEntry)
    (hread : ∀ lba ∈ L, lba < v.disk.size) (hroom : out.length+(slotsOf L).length ≤ maxEntries) :
    listSectors v maxEntries L out =
      (reachesEnd v (slotsOf L), out++records v (slotsOf L)) := by
  induction L generalizing out with
  | nil => simp [listSectors, slotsOf, records, reachesEnd]
  | cons lba L ih =>
    have hslots : slotsOf (lba::L) =
        ((List.range' 0 entriesPerSector).map fun j => (lba, j))++slotsOf L := by
      rw [slotsOf, List.flatMap_cons, List.range_eq_range']
      rfl
    have hlen : (slotsOf (lba::L)).length = entriesPerSector+(slotsOf L).length := by
      rw [hslots, List.length_append, List.length_map, List.length_range']
    have hper : entriesPerSector = 16 := rfl
    have hd : v.disk.read lba = some (v.disk.data lba) := if_pos (hread lba (by simp))
    have hrec := records_length (v := v) ((List.range' 0 entriesPerSector).map fun j => (lba, j))
    rw [List.length_map, List.length_range'] at hrec
    rw [listSectors, if_pos (by omega), hd]
    dsimp only
    rw [listEntries_records lba entriesPerSector 0 out (by omega), hslots, records_append,
      reachesEnd_append]
    cases reachesEnd v ((List.range' 0 entriesPerSector).map fun j => (lba, j)) with
    | true => simp
    | false =>
      dsimp only
      rw [ih _ (fun l hl => hread l (by simp [hl])) (by rw [List.length_append]; omega)]
      simp [List.append_assoc]

/-- The cluster loop. -/
theorem listClusters_records (fuel c : ℕ) (cs : List ℕ) (out : List VfsDirEntry)
    (h : Walked v c cs) (hfuel : cs.length < fuel)
    (hread : ∀ lba ∈ chainLbas v.bpb cs, lba < v.disk.size)
    (hroom : out.length+(slotsOf (chainLbas v.bpb cs)).length ≤ maxEntries) :
    listClusters v maxEntries fuel c out =
      some (out++records v (slotsOf (chainLbas v.bpb cs))) := by
  induction cs generalizing fuel c out with
  | nil =>
    obtain ⟨fuel, rfl⟩ : ∃ k, fuel = k+1 := ⟨fuel-1, by simp at hfuel; omega⟩
    have hstop : inChain c = false := h
    simp [listClusters, hstop, chainLbas, slotsOf, records]
  | cons x cs ih =>
    obtain ⟨fuel, rfl⟩ : ∃ k, fuel = k+1 := ⟨fuel-1, by simp at hfuel; omega⟩
    obtain ⟨rfl, hx, htail⟩ := h
    have hsplit : chainLbas v.bpb (c::cs) = v.bpb.clusterLbas c++chainLbas v.bpb cs := rfl
    rw [hsplit, slotsOf_append] at hroom ⊢
    rw [hsplit] at hread
    rw [List.length_append] at hroom
    rw [listClusters]
    by_cases hlt : out.length < maxEntries
    · rw [if_pos ⟨hx, hlt⟩, listSectors_records _ out (fun l hl => hread l (by simp [hl])) (by omega),
        records_append]
      have hrec := records_length (v := v) (slotsOf (v.bpb.clusterLbas c))
      cases reachesEnd v (slotsOf (v.bpb.clusterLbas c)) with
      | true => simp
      | false =>
        dsimp only
        rw [ih fuel (v.fat c) _ htail (by simpa using hfuel) (fun l hl => hread l (by simp [hl]))
          (by rw [List.length_append]; omega)]
        simp [List.append_assoc]
    · -- there is no slot left
      have h1 : slotsOf (v.bpb.clusterLbas c) = [] := List.length_eq_zero_iff.mp (by omega)
      have h2 : slotsOf (chainLbas v.bpb cs) = [] := List.length_eq_zero_iff.mp (by omega)
      rw [if_neg fun hc => hlt hc.2, h1, h2]
      simp [records]

end Loops

section Agreement

variable {v : Volume} {d maxEntries : ℕ} {L : List ℕ} (h : Directory v d L)

/-- The slot that a search for some name can return. -/
def Findable (v : Volume) (p : Slot) : Prop := ∃ name, probeAt v name p = some (some p)

theorem findable_iff (p : Slot) : Findable v p ↔ ¬ (v.entryAt p).isEnd ∧ Searched v p := by
  constructor
  · rintro ⟨name, hp⟩
    rw [probeAt_matches] at hp
    split_ifs at hp with hend hm
    · simp at hp
    · exact ⟨hend, hm.1, hm.2.1⟩
  · rintro ⟨hend, hs⟩
    obtain ⟨name, hm⟩ := (searched_iff p).mp hs
    exact ⟨name, by rw [probeAt_matches, if_neg hend, if_pos hm]⟩

instance (v : Volume) (p : Slot) : Decidable (Findable v p) :=
  decidable_of_iff _ (findable_iff p).symm

/-- What the directory lists: the slots before the end that a search can return. -/
def listed (v : Volume) (L : List ℕ) : List VfsDirEntry :=
  ((usedSlots v L).filter fun p => Findable v p).map fun p => recordOf (v.entryAt p)

theorem listed_eq : listed v L = records v (slotsOf L) := by
  have hsame : ∀ p ∈ usedSlots v L, decide (Findable v p) = decide (Searched v p) := by
    intro p hp
    simp [findable_iff, usedSlots_not_end hp]
  rw [listed, List.filter_congr hsame]
  rfl

theorem chain_of_scanLbas (hL : ScanLbas v d L) (hd : d ≠ 0) :
    ∃ cs, Walked v (d%65536) cs ∧ L = chainLbas v.bpb cs := by
  rcases hL with ⟨h0, _⟩ | ⟨_, hcs⟩
  · exact absurd h0 hd
  · exact hcs

include h in
/-- With room for all slots, the listing is complete and in the order of the slots. -/
theorem fat16Readdir_listed (hroom : (slotsOf L).length ≤ maxEntries) :
    fat16Readdir v d maxEntries = some (some (listed v L)) := by
  have hm : ¬ v.mounted = false := by simp [h.mounted]
  rw [fat16Readdir, if_neg hm, listed_eq]
  by_cases hd : d = 0
  · have hroot : L = v.bpb.rootLbas := by
      rcases h.lbas with ⟨_, hL⟩ | ⟨hne, _⟩
      · exact hL
      · exact absurd hd hne
    rw [if_pos hd, ← hroot, listSectors_records L [] h.readable (by simpa using hroom),
      List.nil_append]
  · obtain ⟨cs, hcs, rfl⟩ := chain_of_scanLbas h.lbas hd
    have hlen := walked_length hcs
    have hfuel : cs.length < readdirFuel maxEntries := by
      unfold readdirFuel
      omega
    rw [if_neg hd, listClusters_records _ _ cs [] hcs hfuel h.readable (by simpa using hroom),
      List.nil_append]
    rfl

/-- The vnode that `fat16_lookup` fills in for a slot. -/
def vnodeAt (v : Volume) (d : ℕ) (name : List UInt8) (p : Slot) : Vnode where
  type := entryType (v.entryAt p)
  size := (v.entryAt p).fileSize.toNat
  inodeNum := (v.entryAt p).cluster
  nodeData := some (name.take 12, d)

include h in
theorem loadEntry_used {p : Slot} (hp : p ∈ usedSlots v L) : v.loadEntry p = v.entryAt p := by
  have hslot : p ∈ slotsOf L := (List.takeWhile_sublist _).subset hp
  rw [Volume.loadEntry, load_eq _ _ (h.readable _ (mem_slotsOf.mp hslot).1), Volume.entryAt]

include h in
theorem fat16Lookup_scan (name : List UInt8) : fat16Lookup true v d name =
    some (((usedSlots v L).find? fun p => Matches v name p).map (vnodeAt v d name)) := by
  rw [fat16Lookup, findDirEntry_scan h]
  cases hfind : (usedSlots v L).find? fun p => Matches v name p with
  | none => rfl
  | some p =>
    have hload := loadEntry_used h (List.mem_of_find?_eq_some hfind)
    simp only [Option.bind_eq_bind, Option.bind_some, if_true, hload]
    rfl

/-- A search among the records goes the way of the search among the slots. -/
theorem find?_listed (name : List UInt8) :
    (listed v L).find? (fun r => r.cName.map upper = name.map upper) =
      ((usedSlots v L).find? fun p => Matches v name p).map fun p => recordOf (v.entryAt p) := by
  have hmatch : ∀ p ∈ usedSlots v L, (Matches v name p ↔
      Findable v p ∧ (recordOf (v.entryAt p)).cName.map upper = name.map upper) := by
    intro p hp
    have hend := usedSlots_not_end hp
    rw [findable_iff, Matches, matchFilename_iff, Searched]
    change _ ↔ _ ∧ (decodedName (v.entryAt p)).map upper = _
    tauto
  rw [listed, List.find?_map, List.find?_filter]
  congr 1
  apply List.find?_congr
  intro p hp
  simp [hmatch p hp]

include h in
/-- The listing holds, in the order of the slots, one record for each slot that a search can
return, and looking a name up is looking for it in the listing. -/
theorem listing_agrees (hroom : (slotsOf L).length ≤ maxEntries) :
    ∃ rs, fat16Readdir v d maxEntries = some (some rs) ∧
      rs = ((usedSlots v L).filter fun p => Findable v p).map (fun p => recordOf (v.entryAt p)) ∧
      (∀ r ∈ rs, ∃ first vn,
        rs.find? (fun r' => r'.cName.map upper = r.cName.map upper) = some first ∧
        fat16Lookup true v d r.cName = some (some vn) ∧ vn.size = first.size.toNat ∧
        vn.type = if first.type = 0x44 then .directory else .file) ∧
      ∀ name vn, fat16Lookup true v d name = some (some vn) →
        ∃ r ∈ rs, r.cName.map upper = name.map upper := by
  refine ⟨listed v L, fat16Readdir_listed h hroom, rfl, ?_, ?_⟩
  · intro r hr
    have hfind := find?_listed (v := v) (L := L) r.cName
    cases hp : (usedSlots v L).find? fun p => Matches v r.cName p with
    | none =>
      rw [hp, Option.map_none, List.find?_eq_none] at hfind
      exact absurd (hfind r hr) (by simp)
    | some p =>
      rw [hp, Option.map_some] at hfind
      refine ⟨_, vnodeAt v d r.cName p, hfind, ?_, rfl, ?_⟩
      · rw [fat16Lookup_scan h, hp]
        rfl
      · change entryType (v.entryAt p) = if (if _ then _ else _) = _ then _ else _
        unfold entryType
        by_cases hdir : (v.entryAt p).isDirectory <;> simp [hdir]
  · intro name vn hvn
    rw [fat16Lookup_scan h, Option.some.injEq, Option.map_eq_some_iff] at hvn
    obtain ⟨p, hp, _⟩ := hvn
    have hfind := find?_listed (v := v) (L := L) name
    rw [hp, Option.map_some] at hfind
    exact ⟨_, List.mem_of_find?_eq_some hfind, by simpa using List.find?_some hfind⟩

end Agreement

theorem listing_agrees_archive : ∃ rs, fat16Readdir (rootFile attrArchive) 0 16 = some (some rs) ∧
    rs = ((usedSlots (rootFile attrArchive) (rootFile attrArchive).bpb.rootLbas).filter
      fun p => Findable (rootFile attrArchive) p).map
        (fun p => recordOf ((rootFile attrArchive).entryAt p)) ∧
    (∀ r ∈ rs, ∃ first vn,
      rs.find? (fun r' => r'.cName.map upper = r.cName.map upper) = some first ∧
      fat16Lookup true (rootFile attrArchive) 0 r.cName = some (some vn) ∧
      vn.size = first.size.toNat ∧ vn.type = if first.type = 0x44 then .directory else .file) ∧
    ∀ name vn, fat16Lookup true (rootFile attrArchive) 0 name = some (some vn) →
      ∃ r ∈ rs, r.cName.map upper = name.map upper :=
  listing_agrees (rootFile_directory attrArchive) (by decide)

end Vlsmc.DirectoryListings
