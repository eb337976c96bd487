import Vlsmc.SequentialWrites

/-!
# Reads and the end of a file

`fat16_read` cuts a read at the end of the file when `offset + size` lies behind it, and the sum
wraps at 2^32. A sum that wraps is never behind the end, so the read goes on to the end of the
last cluster.
-/

set_option autoImplicit false

namespace Vlsmc.Fat16ReadBounds
open Vlsmc.Fat16Layout Vlsmc.Fat16Names Vlsmc.Fat16Volume Vlsmc.Fat16Files Vlsmc.Fat16Geometry
open Vlsmc.Fat16Chains Vlsmc.Fat16Directory Vlsmc.Fat16Store Vlsmc.Fat16Reading
open Vlsmc.Words Vlsmc.SequentialWrites

def sectorBytes (s : Sector) : List UInt8 := (List.range 512).map s

/-- The bytes of a list of clusters, slack included. -/
def chainBytes (v : Volume) (cs : List ℕ) : List UInt8 :=
  (chainLbas v.bpb cs).flatMap fun lba => sectorBytes (v.disk.data lba)

/-- The clusters of an entry; a first cluster below two stands for none. -/
def ChainOf (v : Volume) (e : DirEntry) (cs : List ℕ) : Prop :=
  if 2 ≤ e.cluster then FatChain v e.cluster cs else cs = []

def fileBytes (v : Volume) (e : DirEntry) (cs : List ℕ) : List UInt8 :=
  (chainBytes v cs).take e.fileSize.toNat

/-- The vnode names a file with entry `e` and clusters `cs`, long enough for its size. -/
structure FileOf (v : Volume) (vn : Vnode) (e : DirEntry) (cs : List ℕ) : Prop where
  type : vn.type = .file
  found : ∃ name dir p, vn.nodeData = some (name, dir) ∧
    v.findDirEntry dir name = some (some p) ∧ v.entryAt p = e
  chain : ChainOf v e cs
  long : e.fileSize.toNat ≤ (chainBytes v cs).length

/-- The number of bytes a read should deliver. -/
def available (length offset size : ℕ) : ℕ :=
  if offset < length then min size (length-offset) else 0

/-- `fat16_read` and `sys_fread` deliver the bytes between the offset and the end of the file. -/
structure ReadsWithin (v : Volume) (vn : Vnode) (data : List UInt8) (offset size : ℕ) : Prop where
  driver : fat16Read v vn offset size = some ((available data.length offset size:ℤ),
    (data.drop offset).take (available data.length offset size))
  call : ∀ f : OpenFile, f.vn = vn → f.offset = offset → f.writeOnly = false →
    sysFread v f size = some (available data.length offset size,
      (data.drop offset).take (available data.length offset size),
      { f with offset := offset+available data.length offset size })

section Bytes

theorem sectorBytes_length (s : Sector) : (sectorBytes s).length = 512 := by
  rw [sectorBytes, List.length_map, List.length_range]

theorem sectorBytes_get (s : Sector) {b : ℕ} (hb : b < 512) : (sectorBytes s)[b]? = some (s b) := by
  rw [sectorBytes, List.getElem?_map, List.getElem?_range hb]
  rfl

theorem sectors_length (f : ℕ → Sector) (ls : List ℕ) :
    (ls.flatMap fun l => sectorBytes (f l)).length = 512*ls.length := by
  induction ls with
  | nil => rfl
  | cons l ls ih =>
    rw [List.flatMap_cons, List.length_append, sectorBytes_length, ih, List.length_cons]
    ring

theorem sectors_get (f : ℕ → Sector) (ls : List ℕ) {j l b : ℕ} (h : ls[j]? = some l)
    (hb : b < 512) : (ls.flatMap fun l => sectorBytes (f l))[512*j+b]? = some (f l b) := by
  induction ls generalizing j with
  | nil => simp at h
  | cons a ls ih =>
    have hl := sectorBytes_length (f a)
    rw [List.flatMap_cons]
    cases j with
    | zero =>
      obtain rfl : a = l := by simpa using h
      rw [List.getElem?_append_left (by omega), Nat.mul_zero, Nat.zero_add]
      exact sectorBytes_get (f a) hb
    | succ j =>
      rw [List.getElem?_append_right (by omega), hl, show 512*(j+1)+b-512 = 512*j+b by omega]
      exact ih (by simpa using h)

theorem chainBytes_length (v : Volume) (cs : List ℕ) :
    (chainBytes v cs).length = 512*(cs.length*v.bpb.spc) := by
  rw [chainBytes, sectors_length, chainLbas_length]

/-- The sectors of the chain hold its bytes, whatever follows them. -/
theorem chainBytes_held (v : Volume) (cs : List ℕ) (rest : List UInt8) :
    HoldsFrom v (chainBytes v cs++rest) 0 cs := by
  intro j lba hj _ b hb
  have hget := sectors_get v.disk.data (chainLbas v.bpb cs) hj hb
  have hlt := (List.getElem?_eq_some_iff.mp hj).1
  have hlen := sectors_length v.disk.data (chainLbas v.bpb cs)
  rw [Nat.zero_add, fileBlock, block, chainBytes, List.length_append, hlen, if_pos (by omega),
    List.getD_eq_getElem?_getD, List.getElem?_append_left (by omega), hget]
  rfl

end Bytes

section Found

variable {v : Volume}

theorem probeSector_found {name : List UInt8} {lba : ℕ} {p : Slot}
    (h : v.probeSector name lba = some (some p)) :
    v.loadEntry p = v.entryAt p ∧ matchFilename (v.entryAt p) name = true := by
  unfold Volume.probeSector at h
  split at h
  · exact absurd h (by simp)
  · next s hs =>
    obtain ⟨i, -, hi⟩ := List.exists_of_findSome?_eq_some h
    unfold Volume.probeEntry at hi
    split_ifs at hi with _ _ _ hmatch
    · simp at hi
    · obtain rfl := Option.some.inj (Option.some.inj hi)
      have hload : v.disk.load lba = s := by rw [Disk.load, hs, Option.getD_some]
      unfold Disk.read at hs
      split_ifs at hs
      obtain rfl := Option.some.inj hs
      exact ⟨congrArg (getEntry · i) hload, hmatch⟩

theorem probeAll_found {name : List UInt8} {ls : List ℕ} {p : Slot}
    (h : ls.findSome? (v.probeSector name) = some (some p)) :
    v.loadEntry p = v.entryAt p ∧ matchFilename (v.entryAt p) name = true := by
  obtain ⟨lba, -, hlba⟩ := List.exists_of_findSome?_eq_some h
  exact probeSector_found hlba

/-- The sector of an entry that was found can be read again, and the name is that of the entry. -/
theorem found_entry {dir : ℕ} {name : List UInt8} {p : Slot}
    (h : v.findDirEntry dir name = some (some p)) :
    v.loadEntry p = v.entryAt p ∧ matchFilename (v.entryAt p) name = true := by
  unfold Volume.findDirEntry at h
  split_ifs at h
  · simp at h
  · cases hf : v.bpb.rootLbas.findSome? (v.probeSector name) with
    | none =>
      rw [hf] at h
      simp at h
    | some r =>
      rw [hf] at h
      obtain rfl := Option.some.inj h
      exact probeAll_found hf
  · split at h
    · simp at h
    · next r hr =>
      obtain rfl := Option.some.inj h
      obtain ⟨c, hc⟩ := SuccessorChain.walk_returns hr
      exact probeAll_found hc
    · simp at h

end Found

section Count

theorem available_le (length offset size : ℕ) : available length offset size ≤ length-offset := by
  unfold available
  split_ifs
  · exact Nat.min_le_right _ _
  · exact Nat.zero_le _

/-- The bytes asked for, as many as there are. -/
theorem take_available (data : List UInt8) (offset size : ℕ) :
    (data.drop offset).take (available data.length offset size) = (data.drop offset).take size := by
  rw [List.take_eq_take_iff, List.length_drop]
  unfold available
  split_ifs <;> omega

theorem part_length (data : List UInt8) (offset size : ℕ) :
    ((data.drop offset).take (available data.length offset size)).length =
      available data.length offset size := by
  rw [List.length_take, List.length_drop]
  exact Nat.min_eq_left (available_le _ _ _)

theorem toInt32_eq_iff {n : ℕ} (h : n < 4294967296) : toInt32 n = n ↔ n < 2147483648 := by
  unfold toInt32
  split_ifs <;> omega

/-- A read of the driver that returns the number of its bytes. -/
theorem readsWithin_iff {v : Volume} {vn : Vnode} (data got : List UInt8) {offset size : ℕ}
    (hread : fat16Read v vn offset size = some (toInt32 got.length, got))
    (hgot : got.length < 4294967296) (hdata : data.length < 4294967296)
    (hoff : offset < 4294967296) :
    ReadsWithin v vn data offset size ↔
      got = (data.drop offset).take size ∧ got.length < 2147483648 := by
  have htake := take_available data offset size
  have hlen := part_length data offset size
  have hle := available_le data.length offset size
  constructor
  · intro h
    have hdriver := h.driver
    rw [hread] at hdriver
    obtain ⟨hret, hpart⟩ := Prod.mk.inj (Option.some.inj hdriver)
    have hn : got.length = available data.length offset size := by rw [hpart, hlen]
    rw [← hn] at hret
    exact ⟨hpart.trans htake, (toInt32_eq_iff hgot).mp hret⟩
  · rintro ⟨rfl, hlt⟩
    rw [← htake, hlen] at hlt
    have hdriver := hread
    rw [← htake, hlen, (toInt32_eq_iff (by omega)).mpr hlt] at hdriver
    refine ⟨hdriver, fun f hvn hfo hrd => ?_⟩
    obtain ⟨fvn, foffset, fwriteOnly⟩ := f
    obtain rfl : vn = fvn := hvn.symm
    obtain rfl : offset = foffset := hfo.symm
    obtain rfl : fwriteOnly = false := hrd
    rw [sysFread, if_neg (by simp), hdriver]
    dsimp only [Option.bind_eq_bind, Option.bind_some]
    by_cases h0 : 0 < available data.length offset size
    · rw [if_pos (by omega), Int.toNat_natCast, u32_of_lt (by omega)]
      rfl
    · have hz : available data.length offset size = 0 := by omega
      rw [if_neg (by omega), hz, Nat.add_zero]
      rfl

end Count

section Read

variable {v : Volume} (hw : Working v) {vn : Vnode} {e : DirEntry} {cs : List ℕ}
include hw

theorem fat16Read_entry (h : FileOf v vn e cs) (offset size : ℕ) :
    fat16Read v vn offset size = readEntry v e offset size := by
  obtain ⟨name, dir, p, hnode, hfind, rfl⟩ := h.found
  have hmount : ¬ v.mounted = false := by simp [hw.mounted]
  rw [fat16Read, if_neg hmount, if_neg (by simp [h.type]), hnode]
  simp only [hfind, (found_entry hfind).1]

omit hw in
theorem chain_capacity (h : ChainOf v e cs) : (chainBytes v cs).length < 4294967296 := by
  have hcap := chainBytes_length v cs
  unfold ChainOf at h
  split_ifs at h
  · have hbound : cs.length*v.bpb.spc ≤ 32766*255 :=
      Nat.mul_le_mul (fatChain_length h) (by have := spc_lt v.bpb; omega)
    omega
  · subst h
    rw [hcap, List.length_nil]
    omega

/-- What a read delivers: the bytes up to the end of the file, or to the end of the last cluster
when `offset + size` wraps. -/
theorem readEntry_bytes (hchain : ChainOf v e cs)
    (hlong : e.fileSize.toNat ≤ (chainBytes v cs).length) {offset size : ℕ}
    (hoff : offset < e.fileSize.toNat) (hsize : size < 4294967296) :
    ∃ got, readEntry v e offset size = some (toInt32 got.length, got) ∧
      got = if offset+size < 4294967296 then ((fileBytes v e cs).drop offset).take size
        else (chainBytes v cs).drop offset := by
  have hcap := chainBytes_length v cs
  have hfs : e.fileSize.toNat < 4294967296 := e.fileSize.toNat_lt
  have hfat : FatChain v e.cluster cs := by
    unfold ChainOf at hchain
    split_ifs at hchain
    · exact hchain
    · subst hchain
      rw [List.length_nil] at hcap
      omega
  have hbound := chain_capacity hchain
  -- What the code takes as the number of bytes to read.
  obtain ⟨want, hwant, hmin⟩ : ∃ want,
      (if e.fileSize.toNat < u32 (offset+size) then e.fileSize.toNat-offset else size) = want ∧
      want = if offset+size < 4294967296 then min size (e.fileSize.toNat-offset) else size := by
    refine ⟨_, rfl, ?_⟩
    unfold u32
    split_ifs <;> omega
  have hlen : offset+want ≤ (chainBytes v cs++List.replicate (offset+want) 0).length := by
    rw [List.length_append, List.length_replicate]
    omega
  have hin : offset < 512*(cs.length*v.bpb.spc) := by omega
  obtain ⟨c', cur, hseek, hc', hread⟩ := readFrom_slice hw hfat
    (chainBytes_held v cs (List.replicate (offset+want) 0)) hin hlen
  have hslice : slice (chainBytes v cs++List.replicate (offset+want) 0) offset want
      (cs.length*v.bpb.spc) = ((chainBytes v cs).drop offset).take want := by
    rw [slice, List.drop_append_of_le_length (by omega), List.take_append_of_le_length
      (by rw [List.length_drop]; omega), List.take_eq_take_iff, List.length_drop]
    omega
  have hgot : ((chainBytes v cs).drop offset).take want =
      if offset+size < 4294967296 then ((fileBytes v e cs).drop offset).take size
      else (chainBytes v cs).drop offset := by
    rw [hmin]
    split_ifs
    · rw [fileBytes, List.drop_take, List.take_take]
    · exact List.take_of_length_le (by rw [List.length_drop]; omega)
  rw [hslice] at hread
  refine ⟨_, ?_, hgot⟩
  rw [readEntry, if_neg (by omega)]
  simp only [hwant, hseek, hc', if_true, hread]

/-- Without a wrap the driver delivers the bytes that were asked for. -/
theorem fat16Read_bytes (h : FileOf v vn e cs) (offset size : ℕ)
    (hsum : offset+size < 4294967296) :
    fat16Read v vn offset size =
      some (toInt32 (((fileBytes v e cs).drop offset).take size).length,
        ((fileBytes v e cs).drop offset).take size) := by
  rw [fat16Read_entry hw h]
  by_cases hoff : e.fileSize.toNat ≤ offset
  · have hempty : (fileBytes v e cs).drop offset = [] :=
      List.drop_of_length_le (by rw [fileBytes, List.length_take]; omega)
    rw [readEntry, if_pos hoff, hempty, List.take_nil]
    rfl
  · obtain ⟨got, hread, hgot⟩ := readEntry_bytes hw h.chain h.long (Nat.lt_of_not_le hoff)
      (show size < 4294967296 by omega)
    rw [if_pos hsum] at hgot
    rw [hread, hgot]

/-- A read stays within the file just when it starts behind the end, or delivers less than 2^31
bytes and either `offset + size` does not wrap or the file fills its clusters. -/
theorem reads_within_file (h : FileOf v vn e cs) (offset size : UInt32) :
    ReadsWithin v vn (fileBytes v e cs) offset.toNat size.toNat ↔
      (e.fileSize.toNat ≤ offset.toNat ∨
        min size.toNat (e.fileSize.toNat-offset.toNat) < 2147483648 ∧
        (offset.toNat+size.toNat < 4294967296 ∨
          (chainBytes v cs).length = e.fileSize.toNat)) := by
  have hfs : e.fileSize.toNat < 4294967296 := e.fileSize.toNat_lt
  have hlen : (fileBytes v e cs).length = e.fileSize.toNat := by
    rw [fileBytes, List.length_take]
    exact Nat.min_eq_left h.long
  have hentry := fat16Read_entry hw h offset.toNat size.toNat
  by_cases hoff : e.fileSize.toNat ≤ offset.toNat
  · rw [readEntry, if_pos hoff] at hentry
    have hempty : (fileBytes v e cs).drop offset.toNat = [] :=
      List.drop_of_length_le (by omega)
    rw [readsWithin_iff _ [] hentry (by simp) (by omega) offset.toNat_lt, hempty, List.take_nil]
    exact iff_of_true ⟨rfl, by simp⟩ (Or.inl hoff)
  · obtain ⟨got, hread, hgot⟩ := readEntry_bytes hw h.chain h.long (Nat.lt_of_not_le hoff)
      size.toNat_lt
    have hcap := chain_capacity h.chain
    rw [hread] at hentry
    have hgl : got.length < 4294967296 := by
      rw [hgot]
      split_ifs
      · rw [List.length_take]
        omega
      · rw [List.length_drop]
        omega
    rw [readsWithin_iff _ got hentry hgl (by omega) offset.toNat_lt]
    by_cases hwrap : offset.toNat+size.toNat < 4294967296
    · rw [if_pos hwrap] at hgot
      have hgn : got.length = min size.toNat (e.fileSize.toNat-offset.toNat) := by
        rw [hgot, List.length_take, List.length_drop, hlen]
      simp only [hgot.symm, hgn, true_and, hoff, hwrap, true_or, and_true, false_or]
    · rw [if_neg hwrap] at hgot
      have hgn : got.length = (chainBytes v cs).length-offset.toNat := by
        rw [hgot, List.length_drop]
      have hlong := h.long
      constructor
      · rintro ⟨hpart, hlt⟩
        have hpl := congrArg List.length hpart
        rw [List.length_take, List.length_drop, hlen] at hpl
        exact Or.inr ⟨by omega, Or.inr (by omega)⟩
      · rintro (hle | ⟨hlt, hno | hfull⟩)
        · exact absurd hle hoff
        · exact absurd hno hwrap
        · have hall : fileBytes v e cs = chainBytes v cs :=
            List.take_of_length_le (by omega)
          have hsize := size.toNat_lt
          rw [hgot, hall]
          exact ⟨(List.take_of_length_le (by rw [List.length_drop]; omega)).symm, by
            rw [List.length_drop]; omega⟩

end Read

section Small

/-- File `A` with the bytes 1 and 2 in cluster 2, and 9 in the rest of the cluster. -/
def twoBytes : Volume where
  bpb := Fat16Runs.blank.bpb
  mounted := true
  fatTable := fun c => if c = 2 then 0xFFFF else 0
  disk := {
    size := 300
    data := fun lba =>
      if lba = 2 then
        setEntry zeroSector 0 (freshEntry attrArchive [0x41] 2 2 ⟨0, 0⟩ (getEntry zeroSector 0))
      else if lba = 3 then fun b => if b = 0 then 1 else if b = 1 then 2 else 9
      else zeroSector }

def vnodeA : Vnode where
  type := .file
  size := 2
  inodeNum := 2
  nodeData := some ([0x41], 0)

theorem twoBytes_working : Working twoBytes := ⟨rfl, by decide, by decide⟩

theorem twoBytes_entry : (twoBytes.entryAt (2, 0)).cluster = 2 ∧
    (twoBytes.entryAt (2, 0)).fileSize = 2 ∧
    twoBytes.findDirEntry 0 [0x41] = some (some (2, 0)) ∧
    twoBytes.findDirEntry 0 [0x61] = some (some (2, 0)) ∧
    ¬ (twoBytes.entryAt (2, 0)).isDirectory := by
  decide +kernel

theorem twoBytes_file : FileOf twoBytes vnodeA (twoBytes.entryAt (2, 0)) [2] := by
  refine ⟨rfl, ⟨[0x41], 0, (2, 0), rfl, twoBytes_entry.2.2.1, rfl⟩, ?_, ?_⟩
  · rw [ChainOf, twoBytes_entry.1, if_pos (by decide)]
    have hlast : 0xFFF8 ≤ twoBytes.fat 2 := by decide
    exact ⟨rfl, ⟨by decide, by decide⟩, hlast⟩
  · rw [chainBytes_length, twoBytes_entry.2.1]
    decide

/-- A read of one byte at the last byte of the file. -/
theorem reads_within_twoBytes :
    ReadsWithin twoBytes vnodeA (fileBytes twoBytes (twoBytes.entryAt (2, 0)) [2]) 1 1 := by
  refine (reads_within_file twoBytes_working twoBytes_file 1 1).mpr (Or.inr ⟨?_, Or.inl ?_⟩)
  · rw [twoBytes_entry.2.1]
    decide
  · decide

/-- With as many bytes as a register can ask for the read goes on over the slack. -/
theorem slack_read : Working twoBytes ∧
    FileOf twoBytes vnodeA (twoBytes.entryAt (2, 0)) [2] ∧
    ¬ ReadsWithin twoBytes vnodeA (fileBytes twoBytes (twoBytes.entryAt (2, 0)) [2]) 1
      0xFFFFFFFF := by
  refine ⟨twoBytes_working, twoBytes_file, fun h => ?_⟩
  have hrun : (fat16Read twoBytes vnodeA 1 0xFFFFFFFF).map Prod.fst = some 511 := by
    decide +kernel
  have hlen : (fileBytes twoBytes (twoBytes.entryAt (2, 0)) [2]).length = 2 := by
    rw [fileBytes, List.length_take, chainBytes_length, twoBytes_entry.2.1]
    decide
  rw [h.driver, hlen] at hrun
  exact absurd hrun (by decide)

end Small

end Vlsmc.Fat16ReadBounds
