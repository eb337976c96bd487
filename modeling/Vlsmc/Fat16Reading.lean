import Vlsmc.Fat16Operations

/-!
# Reading a file

`fat16_read` skips whole clusters, then whole sectors, and copies the rest
sector by sector. Its loops keep the buffer equal to a prefix of the requested
slice, and on a stored file no counter wraps around.
-/

set_option autoImplicit false

namespace Vlsmc.Fat16Reading
open Vlsmc.Fat16Layout Vlsmc.Fat16Volume Vlsmc.Fat16Files Vlsmc.Fat16Geometry
open Vlsmc.Fat16Chains Vlsmc.Fat16Directory Vlsmc.Fat16Store Vlsmc.Fat16Operations
open Vlsmc.SuccessorChain
open Vlsmc.Words

/-- The buffer after the first `k` sectors of the file have been looked at. -/
def slice (data : List UInt8) (offset want k : ℕ) : List UInt8 :=
  (data.drop offset).take (min want (512*k-offset))

/-- The `n` sectors from `lba+s` on can be read and hold the file from its sector `k` on. -/
def SectorsHold (d : Disk) (data : List UInt8) (lba n s k : ℕ) : Prop :=
  ∀ j < n, ∃ sec, d.read (u32 (lba+(s+j))) = some sec ∧
    (512*(k+j) < data.length → ∀ b < 512, sec b = fileBlock data (k+j) b)

section Sectors

variable {d : Disk} {data : List UInt8} {lba n s k : ℕ}

theorem sectorsHold_head (h : SectorsHold d data lba (n+1) s k) :
    ∃ sec, d.read (u32 (lba+s)) = some sec ∧
      (512*k < data.length → ∀ b < 512, sec b = fileBlock data k b) :=
  h 0 (Nat.succ_pos n)

theorem sectorsHold_drop (h : SectorsHold d data lba n s k) (m : ℕ) :
    SectorsHold d data lba (n-m) (s+m) (k+m) := by
  intro j hj
  rw [Nat.add_assoc s, Nat.add_assoc k]
  exact h (m+j) (by omega)

theorem sectorsHold_tail (h : SectorsHold d data lba (n+1) s k) :
    SectorsHold d data lba n (s+1) (k+1) := sectorsHold_drop h 1

end Sectors

section Slice

variable {data : List UInt8} {offset want : ℕ} (hwant : offset+want ≤ data.length)
include hwant

theorem slice_length (k : ℕ) : (slice data offset want k).length = min want (512*k-offset) := by
  rw [slice, List.length_take, List.length_drop]
  omega

theorem slice_full {k : ℕ} (h : want ≤ (slice data offset want k).length) :
    slice data offset want k = (data.drop offset).take want := by
  rw [slice_length hwant] at h
  rw [slice, Nat.min_eq_left (by omega)]

/-- A slice that has all it should have does not grow. -/
theorem slice_done {k : ℕ} (m : ℕ) (h : want ≤ (slice data offset want k).length) :
    slice data offset want (k+m) = slice data offset want k := by
  have hl := slice_length hwant k
  have hl' := slice_length hwant (k+m)
  rw [slice_full hwant h, slice_full hwant (by omega)]

omit hwant in
/-- Only bytes inside the sector are copied. -/
theorem copied_bytes {sec : Sector} {k start count : ℕ}
    (hsec : ∀ b < 512, sec b = fileBlock data k b) (hs : start+count ≤ 512) :
    (List.range count).map (fun b => sec (start+b)) =
      (List.range count).map fun b => fileBlock data k (start+b) :=
  List.map_congr_left fun b hb => hsec _ (by have := List.mem_range.mp hb; omega)

/-- Copying the useful part of sector `k` extends the slice. -/
theorem slice_step {k start count : ℕ} (hlt : (slice data offset want k).length < want)
    (hstart : start = offset-512*k) (hs : start < 512)
    (hcount : count = min (want-(slice data offset want k).length) (512-start)) :
    slice data offset want k++(List.range count).map (fun b => fileBlock data k (start+b)) =
      slice data offset want (k+1) := by
  rw [slice_length hwant] at hlt hcount
  have hpos : 512*k+start = offset+min want (512*k-offset) := by omega
  have hend : min want (512*(k+1)-offset) = min want (512*k-offset)+count := by omega
  rw [slice, slice, hend, List.take_add]
  congr 1
  apply List.ext_getElem
  · rw [List.length_map, List.length_range, List.length_take, List.length_drop, List.length_drop]
    omega
  · intro b hb hb'
    rw [List.length_map, List.length_range] at hb
    have hin : start+b < min 512 (data.length-512*k) := by omega
    rw [List.getElem_map, List.getElem_range, List.getElem_take, List.getElem_drop,
      List.getElem_drop]
    simp only [fileBlock, block, if_pos hin]
    have hidx : 512*k+(start+b) = offset+(min want (512*k-offset)+b) := by omega
    rw [hidx]
    exact (List.getElem_eq_getD 0).symm

/-- The sector loop over `n` sectors of a cluster, at sector `k` of the file. -/
theorem readSectors_spec (d : Disk) (lba n s k : ℕ)
    (hbound : 512*(k+n) < 4294967296) (hsec : SectorsHold d data lba n s k) :
    ∃ cur, readSectors d lba offset want n s (slice data offset want k) (512*k) =
        .ok (slice data offset want (k+n), cur) ∧
      (cur = 512*(k+n) ∨ want ≤ (slice data offset want (k+n)).length) := by
  induction n generalizing s k with
  | zero => exact ⟨_, rfl, Or.inl rfl⟩
  | succ n ih =>
    unfold readSectors
    by_cases hlt : (slice data offset want k).length < want
    · rw [if_pos hlt]
      have hl := slice_length hwant k
      obtain ⟨sec, hread, hblock⟩ := sectorsHold_head hsec
      have hcur : u32 (512*k+512) = 512*(k+1) := by
        unfold u32
        omega
      obtain ⟨cur, hnext, hdone⟩ := ih (s+1) (k+1) (by omega) (sectorsHold_tail hsec)
      rw [show k+1+n = k+(n+1) by omega] at hnext hdone
      refine ⟨cur, ?_, hdone⟩
      simp only [hread, hcur]
      by_cases hskip : 512*k < offset ∧ 512 ≤ offset-512*k
      · rw [if_pos hskip]
        have hsame : slice data offset want k = slice data offset want (k+1) := by
          rw [slice, slice, show 512*k-offset = 0 by omega, show 512*(k+1)-offset = 0 by omega]
        rw [hsame]
        exact hnext
      · rw [if_neg hskip]
        have hstart : (if 512*k < offset then offset-512*k else 0) = offset-512*k := by
          split_ifs <;> omega
        have hs : offset-512*k < 512 := by omega
        have hcount : (if want < u32 ((slice data offset want k).length+(512-(offset-512*k)))
            then want-(slice data offset want k).length else 512-(offset-512*k)) =
            min (want-(slice data offset want k).length) (512-(offset-512*k)) := by
          have hu : u32 ((slice data offset want k).length+(512-(offset-512*k))) =
              (slice data offset want k).length+(512-(offset-512*k)) := by
            unfold u32
            omega
          rw [hu]
          split_ifs <;> omega
        rw [hstart, hcount, copied_bytes (hblock (by omega)) (by omega),
          slice_step hwant hlt rfl hs rfl]
        exact hnext
    · have hsame := slice_done hwant (n+1) (Nat.not_lt.mp hlt)
      rw [if_neg hlt, hsame]
      exact ⟨512*k, rfl, Or.inr (Nat.not_lt.mp hlt)⟩

end Slice

/-- The clusters `ds` hold the file from its sector `k` on. -/
def HoldsFrom (v : Volume) (data : List UInt8) (k : ℕ) (ds : List ℕ) : Prop :=
  ∀ j lba, (chainLbas v.bpb ds)[j]? = some lba → 512*(k+j) < data.length →
    ∀ b < 512, v.disk.data lba b = fileBlock data (k+j) b

section Chain

variable {v : Volume} (hw : Working v) {data : List UInt8}

/-- Where the first cluster of a chain ends. -/
theorem sectors_cons (b : Bpb) (k c : ℕ) (ds : List ℕ) :
    k+(c::ds).length*b.spc = k+b.spc+ds.length*b.spc := by
  rw [List.length_cons]
  ring

theorem holdsFrom_tail {k c : ℕ} {ds : List ℕ} (h : HoldsFrom v data k (c::ds)) :
    HoldsFrom v data (k+v.bpb.spc) ds := by
  intro j lba hj hlen
  rw [Nat.add_assoc] at hlen ⊢
  refine h (v.bpb.spc+j) lba ?_ hlen
  have hcl := clusterLbas_length v.bpb c
  rw [chainLbas, List.flatMap_cons, List.getElem?_append_right (by omega), hcl,
    Nat.add_sub_cancel_left]
  exact hj

include hw in
theorem holdsFrom_head {k c : ℕ} {ds : List ℕ} (hc : InRange v.bpb c)
    (h : HoldsFrom v data k (c::ds)) :
    SectorsHold v.disk data (v.bpb.clusterToLba c) v.bpb.spc 0 k := by
  intro j hj
  have hidx : (v.bpb.clusterLbas c)[j]? = some (u32 (v.bpb.clusterToLba c+j)) := by
    rw [Bpb.clusterLbas, List.getElem?_map, List.getElem?_range hj]
    rfl
  have hmem := List.mem_of_getElem? hidx
  have hlt := lt_of_lt_of_le (cluster_lt_dataEnd v.bpb hc.1 hc.2 hmem) hw.accepts
  rw [Nat.zero_add]
  refine ⟨_, if_pos hlt, fun hlen => h j _ ?_ hlen⟩
  have hcl := clusterLbas_length v.bpb c
  rw [chainLbas, List.flatMap_cons, List.getElem?_append_left (by omega), hidx]

include hw

/-- The cluster loop delivers the requested slice, as far as the chain goes. -/
theorem readLoop_slice {offset want : ℕ} (hwant : offset+want ≤ data.length)
    (fuel : ℕ) (ds : List ℕ) (c k cur : ℕ)
    (hchain : FatChain v c ds) (hhold : HoldsFrom v data k ds)
    (hcur : cur = 512*k ∨ want ≤ (slice data offset want k).length)
    (hbound : 512*(k+ds.length*v.bpb.spc) < 4294967296) (hfuel : ds.length < fuel) :
    readLoop v offset want fuel c (slice data offset want k) cur =
      some (toInt32 (slice data offset want (k+ds.length*v.bpb.spc)).length,
        slice data offset want (k+ds.length*v.bpb.spc)) := by
  induction ds generalizing fuel c k cur with
  | nil =>
    obtain ⟨fuel, rfl⟩ : ∃ m, fuel = m+1 := ⟨fuel-1, by simp at hfuel; omega⟩
    have hend : IsLast c := hchain
    rw [readLoop, if_neg (by simp [isLast_inChain c hend]), List.length_nil, Nat.zero_mul,
      Nat.add_zero]
  | cons x ds ih =>
    obtain ⟨fuel, rfl⟩ : ∃ m, fuel = m+1 := ⟨fuel-1, by simp at hfuel; omega⟩
    obtain ⟨rfl, hx, htail⟩ := hchain
    rw [sectors_cons] at hbound ⊢
    by_cases hlt : (slice data offset want k).length < want
    · have hck : cur = 512*k := by omega
      obtain ⟨cur', hread, hcur'⟩ := readSectors_spec hwant v.disk (v.bpb.clusterToLba c)
        v.bpb.spc 0 k (by omega) (holdsFrom_head hw hx hhold)
      rw [readLoop, if_pos ⟨hlt, inRange_inChain v.bpb c hx⟩, hck]
      simp only [hread]
      exact ih fuel (v.fat c) (k+v.bpb.spc) cur' htail (holdsFrom_tail hhold) hcur' hbound
        (by simpa using hfuel)
    · rw [readLoop, if_neg (by omega), Nat.add_assoc, slice_done hwant _ (by omega)]

omit hw in
/-- The seek loop stops at the cluster that contains the offset. -/
theorem seekLoop_spec (offset fuel : ℕ) (ds : List ℕ) (c k : ℕ)
    (hchain : FatChain v c ds) (hhold : HoldsFrom v data k ds)
    (hend : offset < 512*(k+ds.length*v.bpb.spc))
    (hbound : 512*(k+ds.length*v.bpb.spc) < 4294967296) (hk : 512*k ≤ offset)
    (hfuel : ds.length < fuel) :
    ∃ c' ds' k', seekLoop v offset fuel c (512*k) = some (c', 512*k') ∧
      FatChain v c' ds' ∧ ds' ≠ [] ∧ HoldsFrom v data k' ds' ∧ 512*k' ≤ offset ∧
      ds'.length ≤ ds.length ∧
      k'+ds'.length*v.bpb.spc = k+ds.length*v.bpb.spc := by
  induction ds generalizing fuel c k with
  | nil =>
    simp only [List.length_nil, Nat.zero_mul, Nat.add_zero] at hend
    omega
  | cons x ds ih =>
    obtain ⟨fuel, rfl⟩ : ∃ m, fuel = m+1 := ⟨fuel-1, by simp at hfuel; omega⟩
    obtain ⟨rfl, hx, htail⟩ := hchain
    rw [sectors_cons] at hend hbound ⊢
    have hu : u32 (512*k+v.bpb.spc*512) = 512*(k+v.bpb.spc) := by
      unfold u32
      omega
    rw [seekLoop, hu]
    by_cases hstep : 512*(k+v.bpb.spc) ≤ offset
    · rw [if_pos ⟨inRange_inChain v.bpb c hx, hstep⟩]
      obtain ⟨c', ds', k', h1, h2, h3, h4, h5, h6, h7⟩ := ih fuel (v.fat c) (k+v.bpb.spc) htail
        (holdsFrom_tail hhold) hend hbound hstep (by simpa using hfuel)
      exact ⟨c', ds', k', h1, h2, h3, h4, h5, by simp; omega, h7⟩
    · rw [if_neg fun h => hstep h.2]
      exact ⟨c, c::ds, k, rfl, ⟨rfl, hx, htail⟩, by simp, hhold, hk, le_refl _,
        sectors_cons v.bpb k c ds⟩

/-- Seeking and copying deliver the slice as far as the chain goes. -/
theorem readFrom_slice {offset want c : ℕ} {cs : List ℕ} (hchain : FatChain v c cs)
    (hhold : HoldsFrom v data 0 cs) (hoff : offset < 512*(cs.length*v.bpb.spc))
    (hwant : offset+want ≤ data.length) :
    ∃ c' cur, seekLoop v offset readFuel c 0 = some (c', cur) ∧ inChain c' = true ∧
      readLoop v offset want readFuel c' [] cur =
        some (toInt32 (slice data offset want (cs.length*v.bpb.spc)).length,
          slice data offset want (cs.length*v.bpb.spc)) := by
  have hlcs := fatChain_length hchain
  have hbound : cs.length*v.bpb.spc ≤ 32766*255 :=
    Nat.mul_le_mul hlcs (by have := spc_lt v.bpb; omega)
  obtain ⟨c', ds, k, hseek, hds, hnil, hk, hle, hlds, hsum⟩ := seekLoop_spec offset readFuel cs
    c 0 hchain hhold (by omega) (by omega) (by omega) (by unfold readFuel; omega)
  rw [Nat.zero_add] at hsum
  have hc' : inChain c' = true := by
    cases ds with
    | nil => exact absurd rfl hnil
    | cons x ds =>
      obtain ⟨rfl, hx, -⟩ := hds
      exact inRange_inChain v.bpb _ hx
  have hempty : slice data offset want k = [] := by
    rw [slice, show 512*k-offset = 0 by omega, Nat.min_zero, List.take_zero]
  have hread := readLoop_slice hw hwant readFuel ds c' k (512*k) hds hk (Or.inl rfl) (by omega)
    (by unfold readFuel; omega)
  rw [hempty, hsum] at hread
  exact ⟨c', 512*k, hseek, hc', hread⟩

/-- Reading a stored file returns the requested bytes. -/
theorem readEntry_spec {e : DirEntry} (he : Contains v e data) (offset n : ℕ)
    (hn : offset+n < 4294967296) :
    readEntry v e offset n =
      some (toInt32 ((data.drop offset).take n).length, (data.drop offset).take n) := by
  obtain ⟨cs, hchain, hlen, hhold⟩ := he.stored
  unfold readEntry
  rw [he.size]
  by_cases hoff : data.length ≤ offset
  · rw [if_pos hoff, List.drop_of_length_le hoff, List.take_nil]
    rfl
  · rw [if_neg hoff]
    have hne : cs ≠ [] := by
      rintro rfl
      simp only [List.length_nil, Nat.zero_mul] at hlen
      omega
    have hwant : (if data.length < u32 (offset+n) then data.length-offset else n) =
        min n (data.length-offset) := by
      have hu : u32 (offset+n) = offset+n := by
        unfold u32
        omega
      rw [hu]
      split_ifs <;> omega
    have hhold0 : HoldsFrom v data 0 cs := fun j lba hj hl => by
      rw [Nat.zero_add] at hl ⊢
      exact fun b _ => congrFun (hhold j lba hj hl) b
    have hle : offset+min n (data.length-offset) ≤ data.length := by omega
    obtain ⟨c', cur, hseek, hc', hread⟩ :=
      readFrom_slice hw (hchain hne) hhold0 (by omega) hle
    have hfull := slice_length hle (cs.length*v.bpb.spc)
    rw [slice_full hle (by omega)] at hread
    simp only [hwant, hseek, hc', if_true, hread]
    have htake : (data.drop offset).take (min n (data.length-offset)) =
        (data.drop offset).take n := by
      rw [List.take_eq_take_iff, List.length_drop]
      omega
    rw [htake]

end Chain

end Vlsmc.Fat16Reading
