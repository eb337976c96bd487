import Vlsmc.Fat16ReadBounds

/-!
# The other readers of the driver

`read_file` and `read_file_offset` take the name of a file in the root directory. The one reads
from the start and the other divides the offset into clusters, sectors and bytes, where
`fat16_read` steps over them; they deliver the same bytes.
-/

set_option autoImplicit false

namespace Vlsmc.Fat16Readers
open Vlsmc.Fat16Layout Vlsmc.Fat16Names Vlsmc.Fat16Volume Vlsmc.Fat16Files Vlsmc.Fat16Geometry
open Vlsmc.Fat16Chains Vlsmc.Fat16Store Vlsmc.Fat16Reading Vlsmc.Fat16ReadBounds Vlsmc.Words

/-- One iteration of the entry loop of `read_file`, which keeps the entry itself. -/
def matchEntry (name : List UInt8) (s : Sector) (i : ℕ) : Option (Option DirEntry) :=
  if (getEntry s i).isEnd then some none
  else if (getEntry s i).isDeleted then none
  else if (getEntry s i).attributes &&& attrHiddenMask ≠ 0 then none
  else if matchFilename (getEntry s i) name then some (some (getEntry s i)) else none

def matchSector (v : Volume) (name : List UInt8) (lba : ℕ) : Option (Option DirEntry) :=
  match v.disk.read lba with
  | none => none
  | some s => (List.range entriesPerSector).findSome? (matchEntry name s)

def foundEntry (v : Volume) (name : List UInt8) : Option DirEntry :=
  (v.bpb.rootLbas.findSome? (matchSector v name)).getD none

/-- The sector loop of `read_file` over one cluster; a failed read returns what there is. -/
def fileSectors (d : Disk) (lba fileSize maxSize : ℕ) :
    ℕ → ℕ → List UInt8 → Except (List UInt8) (List UInt8)
  | 0, _, buf => .ok buf
  | n+1, s, buf =>
    if maxSize ≤ buf.length then .ok buf
    else if fileSize ≤ buf.length then .ok buf
    else
      match d.read (u32 (lba+s)) with
      | none => .error buf
      | some sec =>
        let toCopy := if fileSize < u32 (buf.length+512) then fileSize-buf.length else 512
        let toCopy := if maxSize < u32 (buf.length+toCopy) then maxSize-buf.length else toCopy
        fileSectors d lba fileSize maxSize n (s+1) (buf++(List.range toCopy).map sec)

def fileLoop (v : Volume) (fileSize maxSize : ℕ) :
    ℕ → ℕ → List UInt8 → Option (ℤ × List UInt8)
  | 0, _, _ => none
  | fuel+1, c, buf =>
    if inChain c ∧ buf.length < maxSize then
      match fileSectors v.disk (v.bpb.clusterToLba c) fileSize maxSize v.bpb.spc 0 buf with
      | .error b => some (toInt32 b.length, b)
      | .ok b => fileLoop v fileSize maxSize fuel (v.fat c) b
    else some (toInt32 buf.length, buf)

def readFile (v : Volume) (name : List UInt8) (maxSize : ℕ) : Option (ℤ × List UInt8) :=
  if v.mounted = false then some (-1, [])
  else
    match foundEntry v name with
    | none => some (-1, [])
    | some e => fileLoop v e.fileSize.toNat maxSize readFuel e.cluster []

/-- `read_file_offset` follows the table over whole clusters; `none` where the chain breaks. -/
def skipClusters (v : Volume) : ℕ → ℕ → Option ℕ
  | 0, c => some c
  | n+1, c => if inChain c then skipClusters v n (v.fat c) else none

/-- The sector loop of `read_file_offset`: `skip` bytes are left out of the first sector. -/
def offsetSectors (d : Disk) (lba size : ℕ) :
    ℕ → ℕ → List UInt8 → ℕ → Except (List UInt8) (List UInt8)
  | 0, _, buf, _ => .ok buf
  | n+1, s, buf, skip =>
    if size ≤ buf.length then .ok buf
    else
      match d.read (u32 (lba+s)) with
      | none => .error buf
      | some sec =>
        let toCopy := 512-skip
        let toCopy := if size < u32 (buf.length+toCopy) then size-buf.length else toCopy
        offsetSectors d lba size n (s+1)
          (buf++(List.range toCopy).map fun b => sec (skip+b)) 0

def offsetLoop (v : Volume) (size : ℕ) :
    ℕ → ℕ → List UInt8 → ℕ → Option (ℤ × List UInt8)
  | 0, _, _, _ => none
  | fuel+1, c, buf, offsetInCluster =>
    if inChain c ∧ buf.length < size then
      let first := offsetInCluster/512%256
      match offsetSectors v.disk (v.bpb.clusterToLba c) size (v.bpb.spc-first) first buf
          (offsetInCluster%512) with
      | .error b => some (toInt32 b.length, b)
      | .ok b => offsetLoop v size fuel (v.fat c) b 0
    else some (toInt32 buf.length, buf)

def readFileOffset (v : Volume) (name : List UInt8) (offset size : ℕ) :
    Option (ℤ × List UInt8) :=
  if v.mounted = false then some (-1, [])
  else
    match v.findDirEntry 0 name with
    | none => none
    | some none => some (-1, [])
    | some (some p) =>
      let e := v.loadEntry p
      if e.fileSize.toNat ≤ offset then some (0, [])
      else
        let size := if e.fileSize.toNat < u32 (offset+size) then e.fileSize.toNat-offset else size
        let clusterSize := v.bpb.spc*512
        match skipClusters v (offset/clusterSize) e.cluster with
        | none => some (-1, [])
        | some c => offsetLoop v size readFuel c [] (offset%clusterSize)

section Sectors

variable {data : List UInt8} {offset want : ℕ} (hwant : offset+want ≤ data.length)

include hwant in
/-- From the sector that holds the offset on, `read_file_offset` extends the slice. -/
theorem offsetSectors_spec (d : Disk) (lba n s k : ℕ) (hbound : 512*(k+n) < 4294967296)
    (hk : offset < 512*(k+1)) (hsec : SectorsHold d data lba n s k) :
    offsetSectors d lba want n s (slice data offset want k) (offset-512*k) =
      .ok (slice data offset want (k+n)) := by
  induction n generalizing s k with
  | zero => rfl
  | succ n ih =>
    unfold offsetSectors
    by_cases hdone : want ≤ (slice data offset want k).length
    · rw [if_pos hdone, slice_done hwant (n+1) hdone]
    · have hl := slice_length hwant k
      obtain ⟨sec, hread, hblock⟩ := sectorsHold_head hsec
      have hcount : (if want < u32 ((slice data offset want k).length+(512-(offset-512*k)))
          then want-(slice data offset want k).length else 512-(offset-512*k)) =
          min (want-(slice data offset want k).length) (512-(offset-512*k)) := by
        rw [u32_of_lt (by omega)]
        split_ifs <;> omega
      have hskip : (0:ℕ) = offset-512*(k+1) := by omega
      have hnext := ih (s+1) (k+1) (by omega) (by omega) (sectorsHold_tail hsec)
      rw [if_neg hdone]
      simp only [hread, hcount]
      rw [copied_bytes (hblock (by omega)) (by omega),
        slice_step hwant (Nat.lt_of_not_le hdone) rfl (by omega) rfl, hskip, hnext,
        show k+1+n = k+(n+1) by omega]

/-- `read_file` stops at whichever comes first, the end of the file or of the buffer. -/
theorem fileSectors_spec {fileSize : ℕ} (maxSize : ℕ) (hfile : fileSize ≤ data.length)
    (d : Disk) (lba n s k : ℕ) (hbound : 512*(k+n) < 4294967296)
    (hsec : SectorsHold d data lba n s k) :
    fileSectors d lba fileSize maxSize n s (slice data 0 (min maxSize fileSize) k) =
      .ok (slice data 0 (min maxSize fileSize) (k+n)) := by
  have hwant : 0+min maxSize fileSize ≤ data.length := by omega
  induction n generalizing s k with
  | zero => rfl
  | succ n ih =>
    unfold fileSectors
    by_cases hmax : maxSize ≤ (slice data 0 (min maxSize fileSize) k).length
    · rw [if_pos hmax, slice_done hwant (n+1) (by omega)]
    · by_cases hend : fileSize ≤ (slice data 0 (min maxSize fileSize) k).length
      · rw [if_neg hmax, if_pos hend, slice_done hwant (n+1) (by omega)]
      · have hl := slice_length hwant k
        obtain ⟨sec, hread, hblock⟩ := sectorsHold_head hsec
        have hnext := ih (s+1) (k+1) (by omega) (sectorsHold_tail hsec)
        have hfirst : (if fileSize < u32 ((slice data 0 (min maxSize fileSize) k).length+512)
            then fileSize-(slice data 0 (min maxSize fileSize) k).length else 512) =
            min (fileSize-(slice data 0 (min maxSize fileSize) k).length) 512 := by
          rw [u32_of_lt (by omega)]
          split_ifs <;> omega
        have hcount : (if maxSize < u32 ((slice data 0 (min maxSize fileSize) k).length+
              min (fileSize-(slice data 0 (min maxSize fileSize) k).length) 512)
            then maxSize-(slice data 0 (min maxSize fileSize) k).length
            else min (fileSize-(slice data 0 (min maxSize fileSize) k).length) 512) =
            min (min maxSize fileSize-(slice data 0 (min maxSize fileSize) k).length) 512 := by
          rw [u32_of_lt (by omega)]
          split_ifs <;> omega
        have hstep := slice_step hwant (k := k) (by omega) (show 0 = 0-512*k by omega) (by omega) rfl
        rw [← copied_bytes (hblock (by omega)) (by omega)] at hstep
        simp only [Nat.zero_add, Nat.sub_zero] at hstep
        rw [if_neg hmax, if_neg hend]
        simp only [hread, hfirst, hcount]
        rw [hstep, hnext, show k+1+n = k+(n+1) by omega]

end Sectors

section Clusters

variable {v : Volume} (hw : Working v) {data : List UInt8}

/-- Skipping whole clusters drops them from the chain. -/
theorem skipClusters_spec (n : ℕ) (ds : List ℕ) (c k : ℕ) (hn : n ≤ ds.length)
    (hchain : FatChain v c ds) (hhold : HoldsFrom v data k ds) :
    ∃ c', skipClusters v n c = some c' ∧ FatChain v c' (ds.drop n) ∧
      HoldsFrom v data (k+n*v.bpb.spc) (ds.drop n) := by
  induction n generalizing ds c k with
  | zero => exact ⟨c, rfl, hchain, by rwa [Nat.zero_mul, Nat.add_zero]⟩
  | succ n ih =>
    cases ds with
    | nil => simp at hn
    | cons x ds =>
      obtain ⟨rfl, hx, htail⟩ := hchain
      obtain ⟨c', hskip, hchain', hhold'⟩ := ih ds (v.fat c) (k+v.bpb.spc) (by simpa using hn)
        htail (holdsFrom_tail hhold)
      refine ⟨c', ?_, hchain', ?_⟩
      · rw [skipClusters, if_pos (inRange_inChain v.bpb c hx)]
        exact hskip
      · rwa [show k+(n+1)*v.bpb.spc = k+v.bpb.spc+n*v.bpb.spc by ring]

theorem slice_empty (data : List UInt8) {offset : ℕ} (want : ℕ) {k : ℕ} (h : 512*k ≤ offset) :
    slice data offset want k = [] := by
  rw [slice, show 512*k-offset = 0 by omega, Nat.min_zero, List.take_zero]

include hw

/-- The cluster loop of `read_file_offset`, whose first cluster may be entered in the middle. -/
theorem offsetLoop_spec {offset want : ℕ} (hwant : offset+want ≤ data.length) (fuel : ℕ)
    (ds : List ℕ) (c k : ℕ) (hchain : FatChain v c ds) (hhold : HoldsFrom v data k ds)
    (hin : offset-512*k < 512*v.bpb.spc)
    (hbound : 512*(k+ds.length*v.bpb.spc) < 4294967296) (hfuel : ds.length < fuel) :
    offsetLoop v want fuel c (slice data offset want (k+(offset-512*k)/512)) (offset-512*k) =
      some (toInt32 (slice data offset want (k+ds.length*v.bpb.spc)).length,
        slice data offset want (k+ds.length*v.bpb.spc)) := by
  induction ds generalizing fuel c k with
  | nil =>
    obtain ⟨fuel, rfl⟩ : ∃ m, fuel = m+1 := ⟨fuel-1, by simp at hfuel; omega⟩
    have hend : IsLast c := hchain
    have hsame : slice data offset want (k+(offset-512*k)/512) = slice data offset want k := by
      by_cases hk : offset ≤ 512*k
      · rw [show offset-512*k = 0 by omega, Nat.zero_div, Nat.add_zero]
      · rw [slice_empty data want (by omega), slice_empty data want (by omega)]
    rw [offsetLoop, if_neg (by simp [isLast_inChain c hend]), List.length_nil, Nat.zero_mul,
      Nat.add_zero, hsame]
  | cons x ds ih =>
    obtain ⟨fuel, rfl⟩ : ∃ m, fuel = m+1 := ⟨fuel-1, by simp at hfuel; omega⟩
    obtain ⟨rfl, hx, htail⟩ := hchain
    rw [sectors_cons] at hbound ⊢
    have hspc := spc_lt v.bpb
    have hfirst : (offset-512*k)/512%256 = (offset-512*k)/512 := Nat.mod_eq_of_lt (by omega)
    by_cases hlt : (slice data offset want (k+(offset-512*k)/512)).length < want
    · have hsec := sectorsHold_drop (holdsFrom_head hw hx hhold) ((offset-512*k)/512)
      have hskip : (offset-512*k)%512 = offset-512*(k+(offset-512*k)/512) := by omega
      have hread := offsetSectors_spec hwant v.disk (v.bpb.clusterToLba c)
        (v.bpb.spc-(offset-512*k)/512) (0+(offset-512*k)/512) (k+(offset-512*k)/512) (by omega)
        (by omega) hsec
      rw [Nat.zero_add, ← hskip,
        show k+(offset-512*k)/512+(v.bpb.spc-(offset-512*k)/512) = k+v.bpb.spc by omega] at hread
      have hnext : (0:ℕ) = offset-512*(k+v.bpb.spc) := by omega
      have hrest := ih fuel (v.fat c) (k+v.bpb.spc) htail (holdsFrom_tail hhold) (by omega)
        hbound (by simpa using hfuel)
      rw [← hnext, Nat.zero_div, Nat.add_zero] at hrest
      rw [offsetLoop, if_pos ⟨inRange_inChain v.bpb c hx, hlt⟩]
      simp only [hfirst, hread]
      exact hrest
    · have hdone := slice_done hwant (v.bpb.spc-(offset-512*k)/512+ds.length*v.bpb.spc)
        (Nat.not_lt.mp hlt)
      rw [offsetLoop, if_neg fun h => hlt h.2, ← hdone,
        show k+(offset-512*k)/512+(v.bpb.spc-(offset-512*k)/512+ds.length*v.bpb.spc) =
          k+v.bpb.spc+ds.length*v.bpb.spc by omega]

/-- The cluster loop of `read_file` goes to the end of the chain unless the buffer is full. -/
theorem fileLoop_spec {fileSize : ℕ} (maxSize : ℕ) (hfile : fileSize ≤ data.length)
    (fuel : ℕ) (ds : List ℕ) (c k : ℕ) (hchain : FatChain v c ds) (hhold : HoldsFrom v data k ds)
    (hbound : 512*(k+ds.length*v.bpb.spc) < 4294967296) (hfuel : ds.length < fuel) :
    fileLoop v fileSize maxSize fuel c (slice data 0 (min maxSize fileSize) k) =
      some (toInt32 (slice data 0 (min maxSize fileSize) (k+ds.length*v.bpb.spc)).length,
        slice data 0 (min maxSize fileSize) (k+ds.length*v.bpb.spc)) := by
  have hwant : 0+min maxSize fileSize ≤ data.length := by omega
  induction ds generalizing fuel c k with
  | nil =>
    obtain ⟨fuel, rfl⟩ : ∃ m, fuel = m+1 := ⟨fuel-1, by simp at hfuel; omega⟩
    have hend : IsLast c := hchain
    rw [fileLoop, if_neg (by simp [isLast_inChain c hend]), List.length_nil, Nat.zero_mul,
      Nat.add_zero]
  | cons x ds ih =>
    obtain ⟨fuel, rfl⟩ : ∃ m, fuel = m+1 := ⟨fuel-1, by simp at hfuel; omega⟩
    obtain ⟨rfl, hx, htail⟩ := hchain
    rw [sectors_cons] at hbound ⊢
    by_cases hlt : (slice data 0 (min maxSize fileSize) k).length < maxSize
    · have hread := fileSectors_spec maxSize hfile v.disk (v.bpb.clusterToLba c) v.bpb.spc
        0 k (by omega) (holdsFrom_head hw hx hhold)
      rw [fileLoop, if_pos ⟨inRange_inChain v.bpb c hx, hlt⟩]
      simp only [hread]
      exact ih fuel (v.fat c) (k+v.bpb.spc) htail (holdsFrom_tail hhold) hbound
        (by simpa using hfuel)
    · have hdone := slice_done hwant (k := k) (v.bpb.spc+ds.length*v.bpb.spc) (by omega)
      rw [fileLoop, if_neg fun h => hlt h.2, ← hdone, Nat.add_assoc]

end Clusters

section Names

variable {v : Volume} {name : List UInt8}

theorem matchSector_probe (lba : ℕ) :
    matchSector v name lba = (v.probeSector name lba).map (Option.map v.entryAt) := by
  unfold matchSector Volume.probeSector
  cases hs : v.disk.read lba with
  | none => rfl
  | some s =>
    have hdata : v.disk.data lba = s := by
      unfold Disk.read at hs
      split_ifs at hs
      exact Option.some.inj hs
    dsimp only
    rw [List.map_findSome?]
    refine congrArg (fun f => (List.range entriesPerSector).findSome? f) (funext fun i => ?_)
    simp only [matchEntry, Volume.probeEntry, Function.comp]
    split_ifs <;> simp [Volume.entryAt, hdata]

/-- `read_file` finds the entry that `find_dir_entry` finds. -/
theorem foundEntry_eq {p : Slot} (hm : v.mounted = true)
    (hfind : v.findDirEntry 0 name = some (some p)) : foundEntry v name = some (v.entryAt p) := by
  have hmatch : matchSector v name = Option.map (Option.map v.entryAt) ∘ v.probeSector name :=
    funext matchSector_probe
  rw [Volume.findDirEntry, if_neg (by simp [hm]), if_pos rfl] at hfind
  have hroot := Option.some.inj hfind
  rw [foundEntry, hmatch, ← List.map_findSome?]
  cases hf : v.bpb.rootLbas.findSome? (v.probeSector name) with
  | none =>
    rw [hf] at hroot
    exact absurd hroot (by simp)
  | some r =>
    rw [hf] at hroot
    obtain rfl : r = some p := hroot
    rfl

end Names

section Readers

variable {v : Volume} (hw : Working v) {name : List UInt8} {p : Slot}
  (hfind : v.findDirEntry 0 name = some (some p)) {cs : List ℕ}
  (hchain : ChainOf v (v.entryAt p) cs)
  (hlong : (v.entryAt p).fileSize.toNat ≤ (chainBytes v cs).length)

theorem part_slice (v : Volume) (cs : List ℕ) (e : DirEntry) (offset size : ℕ) :
    ((chainBytes v cs).drop offset).take (min size (e.fileSize.toNat-offset)) =
      ((fileBytes v e cs).drop offset).take size := by
  rw [fileBytes, List.drop_take, List.take_take]

theorem chainOf_long {e : DirEntry} (hc : ChainOf v e cs) (h : 0 < (chainBytes v cs).length) :
    FatChain v e.cluster cs := by
  have hcap := chainBytes_length v cs
  unfold ChainOf at hc
  split_ifs at hc
  · exact hc
  · subst hc
    rw [List.length_nil] at hcap
    omega

include hw hfind hchain hlong

theorem readFileOffset_bytes {offset size : ℕ} (h : offset+size < 4294967296) :
    readFileOffset v name offset size =
      some (toInt32 (((fileBytes v (v.entryAt p) cs).drop offset).take size).length,
        ((fileBytes v (v.entryAt p) cs).drop offset).take size) := by
  have hcap := chainBytes_length v cs
  have hlt := chain_capacity hchain
  have hmount : ¬ v.mounted = false := by simp [hw.mounted]
  rw [readFileOffset, if_neg hmount]
  simp only [hfind, (found_entry hfind).1]
  by_cases hoff : (v.entryAt p).fileSize.toNat ≤ offset
  · have hempty : (fileBytes v (v.entryAt p) cs).drop offset = [] :=
      List.drop_of_length_le (by rw [fileBytes, List.length_take]; omega)
    rw [if_pos hoff, hempty, List.take_nil]
    rfl
  · have hfat := chainOf_long hchain (by omega)
    have hspc := hw.cluster
    have hwant : (if (v.entryAt p).fileSize.toNat < u32 (offset+size)
        then (v.entryAt p).fileSize.toNat-offset else size) =
        min size ((v.entryAt p).fileSize.toNat-offset) := by
      rw [u32_of_lt h]
      split_ifs <;> omega
    have hhold := chainBytes_held v cs []
    rw [List.append_nil] at hhold
    have hskip : offset/(v.bpb.spc*512) < cs.length := by
      rw [Nat.div_lt_iff_lt_mul (by omega)]
      calc offset < (chainBytes v cs).length := by omega
        _ = cs.length*(v.bpb.spc*512) := by rw [hcap]; ring
    have hdm := Nat.div_add_mod offset (v.bpb.spc*512)
    have hmod := Nat.mod_lt offset (show 0 < v.bpb.spc*512 by omega)
    generalize offset/(v.bpb.spc*512) = n at hskip hdm ⊢
    obtain ⟨c', hskipped, hchain', hhold'⟩ := skipClusters_spec n cs _ 0 hskip.le hfat hhold
    -- The rest of the division is the offset behind the skipped clusters.
    have hskips : v.bpb.spc*512*n = 512*(n*v.bpb.spc) := by ring
    have hdiv : offset%(v.bpb.spc*512) = offset-512*(0+n*v.bpb.spc) := by omega
    have hrest : 0+n*v.bpb.spc+(cs.drop n).length*v.bpb.spc = cs.length*v.bpb.spc := by
      rw [List.length_drop, Nat.zero_add, ← Nat.add_mul, Nat.add_sub_of_le hskip.le]
    have hle : offset+min size ((v.entryAt p).fileSize.toNat-offset) ≤ (chainBytes v cs).length := by
      omega
    have hfuel : (cs.drop n).length < readFuel := by
      have hlcs := fatChain_length hfat
      rw [List.length_drop]
      unfold readFuel
      omega
    have hread := offsetLoop_spec hw hle readFuel _ c' _ hchain' hhold' (by omega)
      (by rw [hrest]; omega) hfuel
    have hl := slice_length hle (cs.length*v.bpb.spc)
    have hfull := slice_full hle (k := cs.length*v.bpb.spc) (by omega)
    have hempty := slice_empty (chainBytes v cs)
      (min size ((v.entryAt p).fileSize.toNat-offset))
      (show 512*(0+n*v.bpb.spc+(offset-512*(0+n*v.bpb.spc))/512) ≤ offset by omega)
    rw [hrest, hfull, part_slice, hempty, ← hdiv] at hread
    rw [if_neg hoff]
    simp only [hwant, hskipped]
    exact hread

theorem readFile_bytes (maxSize : ℕ) :
    readFile v name maxSize =
      some (toInt32 ((fileBytes v (v.entryAt p) cs).take maxSize).length,
        (fileBytes v (v.entryAt p) cs).take maxSize) := by
  have hcap := chainBytes_length v cs
  have hlt := chain_capacity hchain
  have hmount : ¬ v.mounted = false := by simp [hw.mounted]
  rw [readFile, if_neg hmount, foundEntry_eq hw.mounted hfind]
  dsimp only
  by_cases hlow : (v.entryAt p).cluster < 2
  · -- No clusters: the loop does not start, and the file is empty.
    have hcs : cs = [] := by
      unfold ChainOf at hchain
      rwa [if_neg (by omega)] at hchain
    have hbytes : fileBytes v (v.entryAt p) cs = [] := by
      rw [fileBytes, hcs]
      exact List.take_nil
    have hin : inChain (v.entryAt p).cluster = false := by
      simp [inChain]
      omega
    rw [hbytes, List.take_nil, readFuel, fileLoop, if_neg (by simp [hin])]
  · have hfat : FatChain v (v.entryAt p).cluster cs := by
      unfold ChainOf at hchain
      rwa [if_pos (by omega)] at hchain
    have hhold := chainBytes_held v cs []
    rw [List.append_nil] at hhold
    have hlcs := fatChain_length hfat
    have hread := fileLoop_spec hw maxSize hlong readFuel cs _ 0 hfat hhold
      (by omega) (by unfold readFuel; omega)
    have hle : 0+min maxSize (v.entryAt p).fileSize.toNat ≤ (chainBytes v cs).length := by omega
    have hl := slice_length hle (cs.length*v.bpb.spc)
    have hfull := slice_full hle (k := cs.length*v.bpb.spc) (by omega)
    have hpart := part_slice v cs (v.entryAt p) 0 maxSize
    rw [Nat.sub_zero, List.drop_zero, List.drop_zero] at hpart
    rw [Nat.zero_add, hfull, List.drop_zero, hpart, slice_empty _ _ (by omega)] at hread
    exact hread

/-- `fat16_read` on the vnode that a lookup gives, `read_file_offset` and `read_file` return the
same count and bytes. -/
theorem readers_agree (hfile : ¬ (v.entryAt p).isDirectory)
    (hsize : (v.entryAt p).fileSize.toNat < 2147483648) :
    ∃ vn, fat16Lookup true v 0 name = some (some vn) ∧
      (∀ offset size, offset+size < 4294967296 →
        fat16Read v vn offset size =
          some (((((fileBytes v (v.entryAt p) cs).drop offset).take size).length:ℤ),
            ((fileBytes v (v.entryAt p) cs).drop offset).take size) ∧
        readFileOffset v name offset size = fat16Read v vn offset size) ∧
      ∀ maxSize < 4294967296, readFile v name maxSize = fat16Read v vn 0 maxSize := by
  obtain ⟨hload, hmatch⟩ := found_entry hfind
  have htake : name.take 12 = name :=
    Fat16RoundTrip.take_found_name ((matchFilename_iff _ _).mp hmatch)
  have hlook : fat16Lookup true v 0 name = some (some _) :=
    VfsDirectories.lookup_some.mpr ⟨p, hfind, rfl, rfl⟩
  rw [hload, htake] at hlook
  have hof : FileOf v ⟨entryType (v.entryAt p), (v.entryAt p).fileSize.toNat,
      (v.entryAt p).cluster, some (name, 0)⟩ (v.entryAt p) cs :=
    ⟨if_neg hfile, ⟨name, 0, p, rfl, hfind, rfl⟩, hchain, hlong⟩
  refine ⟨_, hlook, fun offset size hsum => ?_, fun maxSize hmax => ?_⟩
  · have hread := fat16Read_bytes hw hof offset size hsum
    refine ⟨?_, ?_⟩
    · have hlen : (((fileBytes v (v.entryAt p) cs).drop offset).take size).length < 2147483648 := by
        rw [List.length_take, List.length_drop, fileBytes, List.length_take]
        omega
      rwa [(toInt32_eq_iff (by omega)).mpr hlen] at hread
    · rw [hread, readFileOffset_bytes hw hfind hchain hlong hsum]
  · have hread := fat16Read_bytes hw hof 0 maxSize (by omega)
    rw [List.drop_zero] at hread
    rw [hread, readFile_bytes hw hfind hchain hlong]

end Readers

/-- The three readers on the small volume, from the second byte of the file. -/
theorem readers_agree_twoBytes :
    ∃ vn, fat16Lookup true twoBytes 0 [0x61] = some (some vn) ∧
      readFileOffset twoBytes [0x61] 1 7 = fat16Read twoBytes vn 1 7 ∧
      readFile twoBytes [0x61] 7 = fat16Read twoBytes vn 0 7 := by
  have hsize : (twoBytes.entryAt (2, 0)).fileSize.toNat < 2147483648 := by
    rw [twoBytes_entry.2.1]
    decide
  obtain ⟨-, -, -, hfind, hregular⟩ := twoBytes_entry
  obtain ⟨vn, hlook, hoffset, hfile⟩ := readers_agree twoBytes_working hfind
    twoBytes_file.chain twoBytes_file.long hregular hsize
  exact ⟨vn, hlook, (hoffset 1 7 (by decide)).2, hfile 7 (by decide)⟩

end Vlsmc.Fat16Readers
