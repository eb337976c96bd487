import Vlsmc.CreatedEntries
import Vlsmc.Fat16Mount

/-!
# The file server

The driver in ring 3 reads the same disk with its own parser: it looks eleven bytes up in the root
directory as they are, takes a cluster number of zero for a missing file, and sends as many bytes
as fit its message, whatever the size of the file.
-/

set_option autoImplicit false

namespace Vlsmc.FileServer
open Vlsmc.Fat16Layout Vlsmc.Fat16Names Vlsmc.Fat16Volume Vlsmc.Fat16Files
open Vlsmc.Fat16Geometry Vlsmc.Fat16Chains Vlsmc.Fat16Directory Vlsmc.Fat16ReadBounds
open Vlsmc.Fat16Operations Vlsmc.Fat16RoundTrip Vlsmc.PathLookups Vlsmc.DirectoryEdits
open Vlsmc.Fat16Growth Vlsmc.CreatedEntries Vlsmc.Fat16Mount Vlsmc.Words

/-- The fields of `BootSector` that the server uses. -/
structure BootSector where
  sectorsPerCluster : UInt8
  reservedSectors : UInt16
  fatCount : UInt8
  rootDirEntries : UInt16
  fatSizeSectors : UInt16

/-- The static variables of the server. -/
structure Server where
  bs : BootSector
  fatStartLba : ℕ
  rootDirStartLba : ℕ
  dataStartLba : ℕ

def bootSectorOf (s : Sector) : BootSector where
  sectorsPerCluster := s 13
  reservedSectors := word16 s 14
  fatCount := s 16
  rootDirEntries := word16 s 17
  fatSizeSectors := word16 s 22

def BootSector.rootDirSectors (bs : BootSector) : ℕ := (bs.rootDirEntries.toNat*32+512-1)/512

/-- `read_fat_info`: the variables are zero when the boot sector cannot be read. -/
def readFatInfo (d : Disk) : Server :=
  match d.read 0 with
  | none => ⟨⟨0, 0, 0, 0, 0⟩, 0, 0, 0⟩
  | some s =>
    let bs := bootSectorOf s
    let fatStart := bs.reservedSectors.toNat
    let rootDirStart := fatStart+bs.fatCount.toNat*bs.fatSizeSectors.toNat
    ⟨bs, fatStart, rootDirStart, rootDirStart+bs.rootDirSectors⟩

/-- The fields of the server's `DirEntry` that it uses. -/
structure ServerEntry where
  name : List UInt8
  attributes : UInt8
  clusterHigh : UInt16
  clusterLow : UInt16

def serverEntry (s : Sector) (j : ℕ) : ServerEntry where
  name := (List.range 11).map fun k => s (32*j+k)
  attributes := s (32*j+11)
  clusterHigh := word16 s (32*j+20)
  clusterLow := word16 s (32*j+26)

/-- The two halves of the cluster number. -/
def ServerEntry.cluster (e : ServerEntry) : ℕ := e.clusterLow.toNat+65536*e.clusterHigh.toNat

/-- The checks of `find_file` on one entry; `some` ends the search. -/
def probe (filename83 : List UInt8) (e : ServerEntry) : Option ℕ :=
  if e.name.head? = some 0x00 then some 0
  else if e.name.head? = some 0xE5 then none
  else if e.attributes &&& 0x0F ≠ 0 then none
  else if e.name = filename83 then some e.cluster
  else none

def scanSector (filename83 : List UInt8) (s : Sector) : Option ℕ :=
  (List.range 16).findSome? fun j => probe filename83 (serverEntry s j)

def Server.findFile (fs : Server) (d : Disk) (filename83 : List UInt8) : ℕ :=
  ((List.range fs.bs.rootDirSectors).findSome? fun i =>
    match d.read (u32 (fs.rootDirStartLba+i)) with
    | none => some 0
    | some s => scanSector filename83 s).getD 0

def Server.getNextCluster (fs : Server) (d : Disk) (cluster : ℕ) : ℕ :=
  match d.read (u32 (fs.fatStartLba+cluster*2/512)) with
  | none => 0xFFFF
  | some s => (word16 s (cluster*2%512)).toNat

/-- The sector loop of `read_file_content` over one cluster. -/
def readCluster (d : Disk) (lba maxSize : ℕ) : ℕ → ℕ → List UInt8 → Except (List UInt8) (List UInt8)
  | 0, _, buf => .ok buf
  | n+1, i, buf =>
    if maxSize ≤ buf.length then .ok buf
    else
      match d.read (u32 (lba+i)) with
      | none => .error buf
      | some s => readCluster d lba maxSize n (i+1) (buf++(sectorBytes s).take (maxSize-buf.length))

/-- `read_file_content`: the bytes in the buffer. A cluster is followed by a 16-bit number. -/
def Server.readFileContent (fs : Server) (d : Disk) (maxSize : ℕ) :
    ℕ → ℕ → List UInt8 → Option (List UInt8)
  | 0, _, _ => none
  | fuel+1, cluster, buf =>
    if 2 ≤ cluster ∧ cluster ≤ 0xFFEF ∧ buf.length < maxSize then
      match readCluster d (u32 (fs.dataStartLba+(cluster-2)*fs.bs.sectorsPerCluster.toNat)) maxSize
        fs.bs.sectorsPerCluster.toNat 0 buf with
      | .error b => some b
      | .ok b => fs.readFileContent d maxSize fuel (fs.getNextCluster d cluster) b
    else some buf

/-- `FILE NOT FOUND`. -/
def fileNotFound : List UInt8 :=
  [0x46, 0x49, 0x4C, 0x45, 0x20, 0x4E, 0x4F, 0x54, 0x20, 0x46, 0x4F, 0x55, 0x4E, 0x44]

/-- The name in a message: its first eleven bytes, filled with spaces. -/
def requestedName (msg : List UInt8) : List UInt8 := (List.range 11).map fun i => msg.getD i space

/-- What `fs_main` sends for a message. -/
def reply (d : Disk) (msg : List UInt8) : Option (List UInt8) :=
  let fs := readFatInfo d
  let cluster := fs.findFile d (requestedName msg)
  if cluster ≠ 0 then fs.readFileContent d 512 chainFuel cluster []
  else some fileNotFound

/-- Eleven bytes, and the name for which they stand. -/
structure PaddedName (filename83 name : List UInt8) : Prop where
  parts : ∃ base ext, filename83 = List.ofFn (padded 8 base)++List.ofFn (padded 3 ext) ∧
    name = base++(if ext = [] then [] else dot::ext) ∧
    1 ≤ base.length ∧ base.length ≤ 8 ∧ ext.length ≤ 3 ∧
    (∀ c ∈ base, validChar c) ∧ (∀ c ∈ ext, validChar c) ∧ base.head? ≠ some 0xE5

/-- The server and the kernel agree on the request: the text for a missing file is sent just when
the lookup fails, and for a file the bytes that a read of one message delivers. -/
structure Agrees (v : Volume) (msg name : List UInt8) : Prop where
  missing : reply v.disk msg = some fileNotFound ↔ fat16Lookup true v 0 name = some none
  content : ∀ vn, fat16Lookup true v 0 name = some (some vn) → vn.type = .file →
    ∃ n bytes, fat16Read v vn 0 512 = some (n, bytes) ∧ reply v.disk msg = some bytes

/-- The entry as the server sees it. -/
def serverEntryAt (v : Volume) (p : Slot) : ServerEntry := serverEntry (v.disk.data p.1) p.2

/-- The server finds the entry under its eleven bytes, and sends what the kernel reads: a whole
message of a file that is long enough, or nothing, where its cluster number is out of range and
the kernel has nothing to read. -/
structure Served (filename83 : List UInt8) (s : ServerEntry) (e : DirEntry) : Prop where
  name : s.name = filename83
  numbered : s.cluster ≠ 0
  content : ¬ e.isDirectory → if 2 ≤ s.cluster ∧ s.cluster ≤ 0xFFEF then 512 ≤ e.fileSize.toNat
    else e.cluster < 2 ∨ e.fileSize = 0

section Parsers

variable {v : Volume} {filename83 name : List UInt8} {p : Slot}

/-- The geometry that both parsers read from the boot sector. -/
theorem server_geometry (hb : v.bpb = bpbOf (v.disk.data 0)) (hd : 0 < v.disk.size) :
    (readFatInfo v.disk).rootDirStartLba = v.bpb.rootDirLba ∧
      (readFatInfo v.disk).bs.rootDirSectors = v.bpb.rootDirSectors ∧
      (readFatInfo v.disk).dataStartLba = v.bpb.dataStartLba ∧
      (readFatInfo v.disk).bs.sectorsPerCluster.toNat = v.bpb.spc := by
  have hread : v.disk.read 0 = some (v.disk.data 0) := if_pos hd
  rw [readFatInfo, hread, hb]
  exact ⟨rfl, rfl, rfl, rfl⟩

theorem server_name (v : Volume) (p : Slot) :
    (serverEntryAt v p).name = List.ofFn (v.entryAt p).name++List.ofFn (v.entryAt p).ext := by
  simp [serverEntryAt, serverEntry, Volume.entryAt, getEntry, List.range_succ, List.ofFn_succ]

theorem server_first (v : Volume) (p : Slot) :
    (serverEntryAt v p).name.head? = some ((v.entryAt p).name 0) := by
  rw [server_name, List.ofFn_succ]
  rfl

theorem server_isEnd : (serverEntryAt v p).name.head? = some 0x00 ↔ (v.entryAt p).isEnd := by
  rw [server_first, Option.some.injEq]
  rfl

theorem server_isDeleted :
    (serverEntryAt v p).name.head? = some 0xE5 ↔ (v.entryAt p).isDeleted := by
  rw [server_first, Option.some.injEq]
  rfl

/-- The server skips an entry and ends the search where the kernel does. -/
theorem probe_end (h : (v.entryAt p).isEnd) : probe filename83 (serverEntryAt v p) = some 0 := by
  rw [probe, if_pos (server_isEnd.mpr h)]

theorem probe_match (h : Shown (v.entryAt p)) (hn : (serverEntryAt v p).name = filename83) :
    probe filename83 (serverEntryAt v p) = some (serverEntryAt v p).cluster := by
  have hmask : (serverEntryAt v p).attributes &&& 0x0F = 0 := h.shown
  rw [probe, if_neg fun he => h.used (server_isEnd.mp he),
    if_neg fun hd => h.kept (server_isDeleted.mp hd), if_neg (not_not.mpr hmask), if_pos hn]

theorem probe_other (he : ¬ (v.entryAt p).isEnd)
    (h : Shown (v.entryAt p) → (serverEntryAt v p).name ≠ filename83) :
    probe filename83 (serverEntryAt v p) = none := by
  unfold probe
  rw [if_neg fun hz => he (server_isEnd.mp hz)]
  split_ifs with hdel hmask hn
  · rfl
  · rfl
  · refine absurd hn (h ⟨he, fun hd => hdel (server_isDeleted.mpr hd), ?_⟩)
    exact not_not.mp hmask
  · rfl

/-- The entry with the eleven bytes answers the name for which they stand. -/
theorem server_answers (hf : PaddedName filename83 name) (hs : Shown (v.entryAt p))
    (hn : (serverEntryAt v p).name = filename83) : Answers (v.entryAt p) name := by
  obtain ⟨base, ext, hpad, rfl, -, h8, h3, hb, he, -⟩ := hf.parts
  rw [server_name, hpad] at hn
  obtain ⟨hbase, hext⟩ := List.append_inj hn (by simp)
  refine ⟨hs, ?_⟩
  rw [entryName, decodedName_padded (List.ofFn_injective hbase) (List.ofFn_injective hext) h8 h3 hb
    he]

theorem paddedName_valid (hf : PaddedName filename83 name) : ValidName name := by
  obtain ⟨base, ext, -, hname, hrest⟩ := hf.parts
  exact ⟨base, ext, hname, hrest⟩

end Parsers

section Search

theorem findSome?_congr {α β : Type*} {f g : α → Option β} {l : List α}
    (h : ∀ a ∈ l, f a = g a) : l.findSome? f = l.findSome? g := by
  induction l with
  | nil => rfl
  | cons a l ih =>
    rw [List.findSome?_cons, List.findSome?_cons, h a (by simp), ih fun b hb => h b (by simp [hb])]

variable {v : Volume} {filename83 name : List UInt8} {p : Slot} (hw : Working v)
  (hb : v.bpb = bpbOf (v.disk.data 0)) (hd : 0 < v.disk.size)
include hw hb hd

/-- `find_file` looks at the slots of the root directory, one after another. -/
theorem findFile_slots (filename83 : List UInt8) : (readFatInfo v.disk).findFile v.disk filename83 =
    ((slotsOf v.bpb.rootLbas).findSome? fun p => probe filename83 (serverEntryAt v p)).getD 0 := by
  obtain ⟨hroot, hsectors, -, -⟩ := server_geometry hb hd
  have hstep : ∀ i ∈ List.range v.bpb.rootDirSectors,
      (match v.disk.read (u32 (v.bpb.rootDirLba+i)) with
        | none => some 0
        | some s => scanSector filename83 s) =
      ((List.range entriesPerSector).map fun j => (v.bpb.rootDirLba+i, j)).findSome?
        fun p => probe filename83 (serverEntryAt v p) := by
    intro i hi
    have hmem : v.bpb.rootDirLba+i ∈ v.bpb.rootLbas := List.mem_map_of_mem hi
    have hlt := dirLbas_readable hw (root_lbas v) hmem
    have hsmall : v.bpb.rootDirLba+i < 4294967296 := by
      have hstart := dataStart_lt v.bpb
      have hlast := (mem_rootLbas v.bpb).mp hmem
      omega
    rw [u32, Nat.mod_eq_of_lt hsmall, Disk.read, if_pos hlt, List.findSome?_map]
    rfl
  rw [Server.findFile, hroot, hsectors, slotsOf, findSome?_flatMap, Bpb.rootLbas,
    List.findSome?_map]
  exact congrArg (Option.getD · 0) (findSome?_congr hstep)

/-- Nothing is found without an entry that has the eleven bytes. -/
theorem findFile_missing (h : ∀ p ∈ slotsOf v.bpb.rootLbas, Shown (v.entryAt p) →
    (serverEntryAt v p).name ≠ filename83) : (readFatInfo v.disk).findFile v.disk filename83 = 0 := by
  rw [findFile_slots hw hb hd]
  cases hf : (slotsOf v.bpb.rootLbas).findSome? fun p => probe filename83 (serverEntryAt v p) with
  | none => rfl
  | some r =>
    obtain ⟨p, hp, hr⟩ := List.exists_of_findSome?_eq_some hf
    by_cases he : (v.entryAt p).isEnd
    · rw [probe_end he] at hr
      exact (Option.some.inj hr).symm
    · rw [probe_other he (h p hp)] at hr
      cases hr

/-- The first entry that answers the name is found, if its bytes are the eleven. -/
theorem findFile_found (hf : PaddedName filename83 name) (hp : Finds v 0 name p)
    (hn : (serverEntryAt v p).name = filename83) :
    (readFatInfo v.disk).findFile v.disk filename83 = (serverEntryAt v p).cluster := by
  obtain ⟨l₁, l₂, hl, hans, hbefore⟩ := (finds_slots hw (root_lbas v)).mp hp
  have hskip : ∀ x ∈ l₁, probe filename83 (serverEntryAt v x) = none := by
    intro x hx
    obtain ⟨hend, hno⟩ := hbefore x hx
    exact probe_other hend fun hs hname => hno (server_answers hf hs hname)
  rw [findFile_slots hw hb hd, hl, List.findSome?_append, List.findSome?_eq_none_iff.mpr hskip,
    Option.none_or, List.findSome?_cons_of_isSome, probe_match hans.1 hn]
  · rfl
  · rw [probe_match hans.1 hn]
    rfl

end Search

section Content

variable {v : Volume} {c : ℕ}

/-- The first sector of a cluster. -/
def firstSector (v : Volume) (c : ℕ) : Sector := v.disk.data (v.bpb.clusterToLba c)

theorem firstSector_read (hw : Working v) (hc : InRange v.bpb c) :
    v.disk.read (u32 (v.bpb.clusterToLba c+0)) = some (firstSector v c) := by
  obtain ⟨l, hl⟩ := clusterLbas_first hc.1 hc.2 hw.cluster
  have hmem : v.bpb.clusterToLba c ∈ v.bpb.clusterLbas c := by
    rw [hl]
    simp
  have hlt := lt_of_lt_of_le (cluster_lt_dataEnd v.bpb hc.1 hc.2 hmem) hw.accepts
  have hsmall : v.bpb.clusterToLba c < 4294967296 := Nat.mod_lt _ (by decide)
  rw [Nat.add_zero, u32, Nat.mod_eq_of_lt hsmall, Disk.read, if_pos hlt]
  rfl

theorem readSectors_full {d : Disk} {lba want n s cur : ℕ} {buf : List UInt8}
    (h : want ≤ buf.length) : readSectors d lba 0 want n s buf cur = .ok (buf, cur) := by
  cases n with
  | zero => rfl
  | succ n => rw [readSectors, if_neg (by omega)]

theorem readCluster_full {d : Disk} {lba maxSize n i : ℕ} {buf : List UInt8}
    (h : maxSize ≤ buf.length) : readCluster d lba maxSize n i buf = .ok buf := by
  cases n with
  | zero => rfl
  | succ n => rw [readCluster, if_pos h]

theorem take_sectorBytes (s : Sector) {n : ℕ} (h : n ≤ 512) :
    (sectorBytes s).take n = (List.range n).map s := by
  rw [sectorBytes, ← List.map_take, List.take_range, Nat.min_eq_left h]

/-- The kernel reads the file up to its size. -/
theorem readEntry_message (hw : Working v) (e : DirEntry) (hc : InRange v.bpb e.cluster) :
    (readEntry v e 0 512).map Prod.snd =
      some ((sectorBytes (firstSector v e.cluster)).take e.fileSize.toNat) := by
  by_cases h0 : e.fileSize.toNat ≤ 0
  · rw [readEntry, if_pos h0, Nat.le_zero.mp h0, List.take_zero]
    rfl
  · generalize hsize : (if e.fileSize.toNat < u32 (0+512) then e.fileSize.toNat-0 else 512) = want
    have hle : want ≤ 512 ∧ 0 < want := by
      rw [← hsize]
      unfold u32
      split_ifs <;> omega
    have htake : (sectorBytes (firstSector v e.cluster)).take e.fileSize.toNat =
        (sectorBytes (firstSector v e.cluster)).take want := by
      rw [List.take_eq_take_iff, sectorBytes_length, ← hsize]
      unfold u32
      split_ifs <;> omega
    obtain ⟨m, hm⟩ : ∃ m, readFuel = m+2 := ⟨2^80-1, rfl⟩
    obtain ⟨n, hn⟩ : ∃ n, v.bpb.spc = n+1 := ⟨v.bpb.spc-1, by have := hw.cluster; omega⟩
    have hspc := spc_lt v.bpb
    have hin : inChain e.cluster = true := inRange_inChain v.bpb _ hc
    have hseek : seekLoop v 0 readFuel e.cluster 0 = some (e.cluster, 0) := by
      rw [hm, seekLoop, if_neg]
      unfold u32
      omega
    have hread : readSectors v.disk (v.bpb.clusterToLba e.cluster) 0 want v.bpb.spc 0 [] 0 =
        .ok ((sectorBytes (firstSector v e.cluster)).take want, 512) := by
      have hbytes := take_sectorBytes (firstSector v e.cluster) hle.1
      have hcount : (if want < u32 (0+(512-0)) then want-0 else 512-0) = want := by
        unfold u32
        split_ifs <;> omega
      rw [hn, readSectors, List.length_nil, if_pos hle.2, firstSector_read hw hc]
      dsimp only
      rw [if_neg (by omega), if_neg (by omega), hcount, List.nil_append, hbytes, readSectors_full]
      · simp only [Nat.zero_add]
        rfl
      · rw [List.length_map, List.length_range]
    rw [readEntry, if_neg h0]
    dsimp only
    rw [hsize, hseek]
    dsimp only
    rw [if_pos hin, hm, readLoop, if_pos ⟨hle.2, hin⟩, hread]
    dsimp only
    rw [readLoop, if_neg, htake]
    · rfl
    · rw [List.length_take, sectorBytes_length]
      omega

/-- Without a cluster there is nothing to read. -/
theorem readEntry_nothing (e : DirEntry) (hc : e.cluster < 2) :
    (readEntry v e 0 512).map Prod.snd = some [] := by
  have hin : ¬ inChain e.cluster = true := by
    unfold inChain
    simp
    omega
  obtain ⟨m, hm⟩ : ∃ m, readFuel = m+1 := ⟨2^80, rfl⟩
  have hseek : seekLoop v 0 readFuel e.cluster 0 = some (e.cluster, 0) := by
    rw [hm, seekLoop, if_neg fun h => hin h.1]
  by_cases h0 : e.fileSize.toNat ≤ 0
  · rw [readEntry, if_pos h0]
    rfl
  · rw [readEntry, if_neg h0]
    dsimp only
    rw [hseek]
    dsimp only
    rw [if_neg hin]
    rfl

/-- The server sends the sector, whatever the size. -/
theorem readFileContent_message (hw : Working v) (hb : v.bpb = bpbOf (v.disk.data 0))
    (hd : 0 < v.disk.size) (hc : InRange v.bpb c) :
    (readFatInfo v.disk).readFileContent v.disk 512 chainFuel c [] =
      some (sectorBytes (firstSector v c)) := by
  obtain ⟨-, -, hdata, hspc⟩ := server_geometry hb hd
  obtain ⟨n, hn⟩ : ∃ n, v.bpb.spc = n+1 := ⟨v.bpb.spc-1, by have := hw.cluster; omega⟩
  have htotal := total_le v.bpb
  have h2 := hc.1
  have hc' := hc.2
  have hlba : u32 (v.bpb.dataStartLba+(c-2)*v.bpb.spc) = v.bpb.clusterToLba c := by
    have hsub : u32 (c+4294967294) = c-2 := by
      unfold u32
      omega
    rw [Bpb.clusterToLba, hsub]
  have hcluster : readCluster v.disk (v.bpb.clusterToLba c) 512 v.bpb.spc 0 [] =
      .ok (sectorBytes (firstSector v c)) := by
    rw [hn, readCluster, if_neg (by simp), firstSector_read hw hc]
    dsimp only
    rw [List.nil_append, List.take_of_length_le (by simp [sectorBytes_length]), readCluster_full]
    rw [sectorBytes_length]
  rw [chainFuel, Server.readFileContent, if_pos ⟨h2, by omega, by simp⟩, hdata, hspc, hlba, hcluster]
  dsimp only
  rw [Server.readFileContent, if_neg]
  rw [sectorBytes_length]
  omega

theorem readFileContent_outside (fs : Server) (d : Disk) (h : ¬ (2 ≤ c ∧ c ≤ 0xFFEF)) :
    fs.readFileContent d 512 chainFuel c [] = some [] := by
  rw [chainFuel, Server.readFileContent, if_neg fun hc => h ⟨hc.1, hc.2.1⟩]

end Content

section Agreement

variable {v : Volume} {msg filename83 name : List UInt8} {p : Slot}

theorem reply_missing (h : (readFatInfo v.disk).findFile v.disk (requestedName msg) = 0) :
    reply v.disk msg = some fileNotFound := by
  rw [reply, h]
  rfl

theorem reply_found {c : ℕ} (h : (readFatInfo v.disk).findFile v.disk (requestedName msg) = c)
    (hc : c ≠ 0) :
    reply v.disk msg = (readFatInfo v.disk).readFileContent v.disk 512 chainFuel c [] := by
  rw [reply, h]
  exact if_pos hc

/-- What a read of one message delivers of a file. -/
def kernelBytes (v : Volume) (e : DirEntry) : List UInt8 :=
  if 2 ≤ e.cluster then (sectorBytes (firstSector v e.cluster)).take e.fileSize.toNat else []

theorem kernelBytes_read (hw : Working v) (hs : Sound v) (hp : VisibleAt v 0 p) :
    (readEntry v (v.entryAt p) 0 512).map Prod.snd = some (kernelBytes v (v.entryAt p)) := by
  unfold kernelBytes
  split_ifs with h2
  · obtain ⟨t, ht⟩ := hs.chains 0 p .refl hp h2
    exact readEntry_message hw _ ht.2.1
  · exact readEntry_nothing _ (Nat.lt_of_not_le h2)

theorem agrees_lookup (hw : Working v) (hs : Sound v) (hp : VisibleAt v 0 p)
    (hname : entryName (v.entryAt p) = name.map upper) (hn : ValidName name) :
    Agrees v msg name ↔ reply v.disk msg ≠ some fileNotFound ∧
      (¬ (v.entryAt p).isDirectory → reply v.disk msg = some (kernelBytes v (v.entryAt p))) := by
  obtain ⟨hfind, hlook⟩ := lookup_read hw hs .refl hp hname (validName_notDots hn)
  obtain ⟨⟨n, bytes⟩, hread, hbytes⟩ := Option.map_eq_some_iff.mp (kernelBytes_read hw hs hp)
  have hfile : ∀ vn, fat16Lookup true v 0 name = some (some vn) → vn.type = .file →
      ¬ (v.entryAt p).isDirectory ∧ fat16Read v vn 0 512 = some (n, bytes) := by
    intro vn hvn ht
    rw [hlook] at hvn
    obtain rfl := Option.some.inj (Option.some.inj hvn)
    refine ⟨fun hdir => ?_, ?_⟩
    · have ht' : entryType (v.entryAt p) = .file := ht
      rw [entryType, if_pos hdir] at ht'
      cases ht'
    · rw [fat16Read_file hw hp.1 ht rfl hfind, hread]
  rw [← hbytes]
  constructor
  · intro h
    refine ⟨fun heq => ?_, fun hdir => ?_⟩
    · have hnone := h.missing.mp heq
      rw [hlook] at hnone
      cases hnone
    · have ht : entryType (v.entryAt p) = .file := if_neg hdir
      obtain ⟨n', bytes', hread', hreply⟩ := h.content _ hlook ht
      rw [(hfile _ hlook ht).2] at hread'
      rw [hreply, ← (Prod.mk.inj (Option.some.inj hread')).2]
  · rintro ⟨htext, hcontent⟩
    refine ⟨iff_of_false htext fun hnone => ?_, fun vn hvn ht => ?_⟩
    · rw [hlook] at hnone
      cases hnone
    · obtain ⟨hdir, hvnread⟩ := hfile vn hvn ht
      exact ⟨n, bytes, hvnread, hcontent hdir⟩

section Sent

variable (hw : Working v) (hb : v.bpb = bpbOf (v.disk.data 0)) (hd : 0 < v.disk.size)
  (hs : Sound v) (hp : VisibleAt v 0 p)
include hw hb hd hs hp

/-- A cluster number in range is that of the kernel, and its sector is sent. -/
theorem content_sent (hr : 2 ≤ (serverEntryAt v p).cluster ∧ (serverEntryAt v p).cluster ≤ 0xFFEF) :
    2 ≤ (v.entryAt p).cluster ∧ (readFatInfo v.disk).readFileContent v.disk 512 chainFuel
      (serverEntryAt v p).cluster [] = some (sectorBytes (firstSector v (v.entryAt p).cluster)) := by
  have hlow : (v.entryAt p).cluster = (serverEntryAt v p).clusterLow.toNat := rfl
  have heq : (serverEntryAt v p).cluster = (v.entryAt p).cluster := by
    have hsum : (serverEntryAt v p).cluster = (serverEntryAt v p).clusterLow.toNat+
      65536*(serverEntryAt v p).clusterHigh.toNat := rfl
    omega
  rw [heq] at hr ⊢
  obtain ⟨t, ht⟩ := hs.chains 0 p .refl hp hr.1
  exact ⟨hr.1, readFileContent_message hw hb hd ht.2.1⟩

theorem content_ne_text : (readFatInfo v.disk).readFileContent v.disk 512 chainFuel
    (serverEntryAt v p).cluster [] ≠ some fileNotFound := by
  intro h
  by_cases hr : 2 ≤ (serverEntryAt v p).cluster ∧ (serverEntryAt v p).cluster ≤ 0xFFEF
  · rw [(content_sent hw hb hd hs hp hr).2] at h
    have hlen := congrArg List.length (Option.some.inj h)
    rw [sectorBytes_length] at hlen
    exact absurd hlen (by decide)
  · rw [readFileContent_outside _ _ hr] at h
    cases h

theorem content_iff : (readFatInfo v.disk).readFileContent v.disk 512 chainFuel
      (serverEntryAt v p).cluster [] = some (kernelBytes v (v.entryAt p)) ↔
    if 2 ≤ (serverEntryAt v p).cluster ∧ (serverEntryAt v p).cluster ≤ 0xFFEF then
      512 ≤ (v.entryAt p).fileSize.toNat
    else (v.entryAt p).cluster < 2 ∨ (v.entryAt p).fileSize = 0 := by
  have hlen := sectorBytes_length (firstSector v (v.entryAt p).cluster)
  split_ifs with hr
  · obtain ⟨h2, hsent⟩ := content_sent hw hb hd hs hp hr
    rw [hsent, kernelBytes, if_pos h2, Option.some.injEq, eq_comm, List.take_eq_self_iff, hlen]
  · rw [readFileContent_outside _ _ hr, kernelBytes, Option.some.injEq]
    split_ifs with h2
    · have hzero : (v.entryAt p).fileSize = 0 ↔ (v.entryAt p).fileSize.toNat = 0 := by
        rw [← UInt32.toNat_inj]
        rfl
      rw [or_iff_right (by omega), hzero, eq_comm, List.take_eq_nil_iff, or_iff_left]
      intro hnil
      rw [hnil] at hlen
      cases hlen
    · exact iff_of_true rfl (Or.inl (Nat.lt_of_not_le h2))

end Sent

variable (hw : Working v) (hs : Sound v) (hb : v.bpb = bpbOf (v.disk.data 0))
  (hd : 0 < v.disk.size) (hf : PaddedName filename83 name) (hm : requestedName msg = filename83)
include hw hs hb hd hf hm

/-- The bytes of the kernel for a file, and what the server sends instead. -/
theorem agrees_found (hp : Finds v 0 name p) :
    Agrees v msg name ↔ Served filename83 (serverEntryAt v p) (v.entryAt p) := by
  have hvalid := paddedName_valid hf
  obtain ⟨hin, hshown, hname⟩ := findDirEntry_found hw (root_lbas v) hp
  have hroot : InDir v 0 p := ⟨_, root_lbas v, hin⟩
  have hvis : VisibleAt v 0 p := ⟨hroot, shown_visible hvalid hshown hname⟩
  have hagrees := @agrees_lookup v msg name p hw hs hvis hname hvalid
  by_cases hraw : (serverEntryAt v p).name = filename83
  · have hfind := findFile_found hw hb hd hf hp hraw
    rw [← hm] at hfind
    by_cases hc : (serverEntryAt v p).cluster = 0
    · rw [hc] at hfind
      exact iff_of_false (fun h => (hagrees.mp h).1 (reply_missing hfind)) fun h => h.numbered hc
    · rw [hagrees, reply_found hfind hc]
      constructor
      · exact fun h => ⟨hraw, hc, fun hfile => (content_iff hw hb hd hs hvis).mp (h.2 hfile)⟩
      · exact fun h => ⟨content_ne_text hw hb hd hs hvis, fun hfile =>
          (content_iff hw hb hd hs hvis).mpr (h.content hfile)⟩
  · -- the only entry of the name has other bytes
    have hmissing : (readFatInfo v.disk).findFile v.disk filename83 = 0 := by
      apply findFile_missing hw hb hd
      intro x hx hsx hn
      have hans := server_answers hf hsx hn
      have hvx : VisibleAt v 0 x := ⟨⟨_, root_lbas v, hx⟩, shown_visible hvalid hsx hans.2⟩
      obtain rfl := hs.names 0 x p .refl hvx hvis (hans.2.trans hname.symm)
      exact hraw hn
    rw [← hm] at hmissing
    exact iff_of_false (fun h => (hagrees.mp h).1 (reply_missing hmissing)) fun h => hraw h.name

/-- The server agrees with the kernel on a request just when no entry answers its name, or the
one that does is served. -/
theorem server_agrees_iff : Agrees v msg name ↔ ∀ p, Finds v 0 name p →
    Served filename83 (serverEntryAt v p) (v.entryAt p) := by
  obtain ⟨r, hr⟩ := findDirEntry_returns hw (root_lbas v) name
  cases r with
  | some p =>
    rw [agrees_found hw hs hb hd hf hm hr]
    constructor
    · intro h x hx
      rwa [← finds_unique hr hx]
    · exact fun h => h p hr
  | none =>
    have hlook : fat16Lookup true v 0 name = some none := by
      rw [fat16Lookup, hr]
      rfl
    have habs := findDirEntry_absent hw (root_lbas v) (hs.ended 0 _ .refl (root_lbas v)) hr
    have hmissing : (readFatInfo v.disk).findFile v.disk (requestedName msg) = 0 := by
      rw [hm]
      exact findFile_missing hw hb hd fun x hx hsx hn => habs x hx hsx (server_answers hf hsx hn).2
    refine iff_of_true ⟨iff_of_true (reply_missing hmissing) hlook, fun vn hvn => ?_⟩ fun p hp => ?_
    · rw [hlook] at hvn
      cases hvn
    · rw [Finds, hr] at hp
      cases hp

end Agreement

section Small

/-- The boot sector of one sector of table, sixteen root entries and one sector per cluster. -/
def smallBoot : Sector := fun k =>
  if k = 12 then 2 else if k = 13 ∨ k = 14 ∨ k = 16 ∨ k = 22 then 1 else if k = 17 then 16 else 0

def formatted : Volume :=
  { Fat16Runs.blank with disk := ⟨300, fun lba => if lba = 0 then smallBoot else zeroSector⟩ }

theorem formatted_entry {d : ℕ} {L : List ℕ} (hL : DirLbas formatted d L) {p : Slot}
    (hp : p ∈ slotsOf L) : (formatted.entryAt p).isEnd := by
  have hstart : formatted.bpb.dataStartLba = 3 := by decide
  have hpos : p.1 ≠ 0 := by
    intro h0
    rcases dirLbas_mem hL (mem_slotsOf.mp hp).1 with hr | ⟨c, hc, hl⟩
    · rw [h0] at hr
      exact absurd hr (by decide)
    · rw [mem_clusterLbas _ hc.1 hc.2] at hl
      omega
  have hzero : formatted.disk.data p.1 = zeroSector := if_neg hpos
  rw [Volume.entryAt, hzero]
  exact getEntry_zero p.2

theorem formatted_working : Working formatted := ⟨rfl, by decide, by decide⟩

theorem formatted_wellFormed : WellFormed formatted := by
  have hnone : ∀ d p, ¬ VisibleAt formatted d p := fun d p ⟨⟨L, hL, hp⟩, hv⟩ =>
    hv.used (formatted_entry hL hp)
  refine ⟨⟨fun d p _ hp => ?_, fun d p _ _ _ _ _ hp => ?_, fun d L _ hL => ?_,
    fun d p _ _ hp => ?_⟩, fun f hf s hs i hi _ => ?_⟩
  · exact absurd hp (hnone d p)
  · exact absurd hp (hnone d p)
  · exact List.pairwise_iff_forall_sublist.mpr fun hsub _ =>
      formatted_entry hL (hsub.subset (by simp))
  · exact absurd hp (hnone d p)
  · have hzero : formatted.disk.data (formatted.bpb.fatStartLba+f*formatted.bpb.fatSectors+s) =
        zeroSector := if_neg (by have : formatted.bpb.fatStartLba = 1 := rfl; omega)
    rw [hzero]
    rfl

/-- File `A` with the given bytes, as the server and the kernel find it. -/
theorem written_small {data : List UInt8}
    (h : (writeFileInDir formatted 0 [0x41] data ⟨0, 0⟩).map (fun r => (r.1,
      r.2.findDirEntry 0 [0x41], decide (r.2.bpb = bpbOf (r.2.disk.data 0)), r.2.disk.size)) =
        some (true, some (some (2, 0)), true, 300)) :
    ∃ w, writeFileInDir formatted 0 [0x41] data ⟨0, 0⟩ = some (true, w) ∧ Working w ∧
      WellFormed w ∧ w.bpb = bpbOf (w.disk.data 0) ∧ 0 < w.disk.size ∧ Finds w 0 [0x41] (2, 0) := by
  obtain ⟨⟨ok, w⟩, hrun, hends⟩ := Option.map_eq_some_iff.mp h
  obtain ⟨rfl, hfind, hb, hsize⟩ : ok = true ∧ w.findDirEntry 0 [0x41] = some (some (2, 0)) ∧
      w.bpb = bpbOf (w.disk.data 0) ∧ w.disk.size = 300 := by simpa using hends
  obtain ⟨ok', w', hrun', hw, hwf, -⟩ := writeFileInDir_spec formatted_working
    formatted_wellFormed .refl (validName_fits Fat16Runs.validName_A formatted 0) data ⟨0, 0⟩
  rw [hrun] at hrun'
  obtain ⟨rfl, rfl⟩ := Prod.mk.inj (Option.some.inj hrun')
  exact ⟨w, hrun, hw, hwf, hb, by omega, hfind⟩

theorem paddedName_A : PaddedName (requestedName [0x41]) [0x41] :=
  ⟨[0x41], [], by decide, rfl, by decide, by decide, by decide,
    List.forall_mem_singleton.mpr (by decide), List.forall_mem_nil _, by decide⟩

/-- A file that fills a message. -/
theorem server_agrees_full : ∃ w,
    writeFileInDir formatted 0 [0x41] (List.replicate 512 7) ⟨0, 0⟩ = some (true, w) ∧
      Agrees w [0x41] [0x41] := by
  obtain ⟨w, hrun, hw, hwf, hb, hd, hfind⟩ := @written_small (List.replicate 512 7)
    (by decide +kernel)
  have hentry : (writeFileInDir formatted 0 [0x41] (List.replicate 512 7) ⟨0, 0⟩).map (fun r =>
      ((serverEntryAt r.2 (2, 0)).name, (serverEntryAt r.2 (2, 0)).cluster,
        (r.2.entryAt (2, 0)).fileSize.toNat)) = some (requestedName [0x41], 2, 512) := by
    decide +kernel
  rw [hrun] at hentry
  obtain ⟨hname, hcluster, hsize⟩ : (serverEntryAt w (2, 0)).name = requestedName [0x41] ∧
      (serverEntryAt w (2, 0)).cluster = 2 ∧ (w.entryAt (2, 0)).fileSize.toNat = 512 := by
    simpa using hentry
  refine ⟨w, hrun, (server_agrees_iff hw hwf.sound hb hd paddedName_A rfl).mpr fun p hp => ?_⟩
  rw [← finds_unique hfind hp]
  refine ⟨hname, by rw [hcluster]; decide, fun _ => ?_⟩
  rw [if_pos (by rw [hcluster]; decide), hsize]

/-- The whole sector is sent for a file of two bytes, and no file for an empty one. -/
theorem small_files_differ :
    (∃ w, writeFileInDir formatted 0 [0x41] [1, 2] ⟨0, 0⟩ = some (true, w) ∧ Working w ∧
      WellFormed w ∧ (reply w.disk [0x41]).map List.length = some 512 ∧ ¬ Agrees w [0x41] [0x41]) ∧
    ∃ w, writeFileInDir formatted 0 [0x41] [] ⟨0, 0⟩ = some (true, w) ∧ Working w ∧
      WellFormed w ∧ reply w.disk [0x41] = some fileNotFound ∧ ¬ Agrees w [0x41] [0x41] := by
  constructor
  · obtain ⟨w, hrun, hw, hwf, hb, hd, hfind⟩ := @written_small [1, 2] (by decide +kernel)
    have hreply : (writeFileInDir formatted 0 [0x41] [1, 2] ⟨0, 0⟩).map (fun r =>
        ((reply r.2.disk [0x41]).map List.length, (serverEntryAt r.2 (2, 0)).cluster,
          (r.2.entryAt (2, 0)).fileSize.toNat, decide (r.2.entryAt (2, 0)).isDirectory)) =
        some (some 512, 2, 2, false) := by decide +kernel
    rw [hrun] at hreply
    obtain ⟨hlen, hcluster, hsize, hfile⟩ : (reply w.disk [0x41]).map List.length = some 512 ∧
        (serverEntryAt w (2, 0)).cluster = 2 ∧ (w.entryAt (2, 0)).fileSize.toNat = 2 ∧
        ¬ (w.entryAt (2, 0)).isDirectory := by simpa using hreply
    refine ⟨w, hrun, hw, hwf, hlen, fun hagrees => ?_⟩
    have hserved := (agrees_found hw hwf.sound hb hd paddedName_A rfl hfind).mp hagrees
    have hcontent := hserved.content hfile
    rw [if_pos (by rw [hcluster]; decide), hsize] at hcontent
    exact absurd hcontent (by decide)
  · obtain ⟨w, hrun, hw, hwf, hb, hd, hfind⟩ := @written_small [] (by decide +kernel)
    have hreply : (writeFileInDir formatted 0 [0x41] [] ⟨0, 0⟩).map (fun r =>
        (reply r.2.disk [0x41], (serverEntryAt r.2 (2, 0)).cluster)) =
        some (some fileNotFound, 0) := by decide +kernel
    rw [hrun] at hreply
    obtain ⟨htext, hcluster⟩ : reply w.disk [0x41] = some fileNotFound ∧
        (serverEntryAt w (2, 0)).cluster = 0 := by simpa using hreply
    refine ⟨w, hrun, hw, hwf, htext, fun hagrees => ?_⟩
    exact ((agrees_found hw hwf.sound hb hd paddedName_A rfl hfind).mp hagrees).numbered hcluster

end Small

end Vlsmc.FileServer
