import Vlsmc.BootLoader

/-!
# From the disk to the kernel

On a disk with the parameters of the boot sector the two stages follow the chain of the kernel file
in the file allocation table: the kernel in memory is the contents of its clusters, and a chain
that leaves the disk is reported.
-/

set_option autoImplicit false

namespace Vlsmc.BootChain
open Vlsmc.ByteMemory Vlsmc.BootLoader

section Packing

/-- Entries of 12 bits, two in three bytes. -/
def packed (f : ℕ → ℕ) (k : ℕ) : UInt8 :=
  if k%3 = 0 then UInt8.ofNat (f (2*(k/3)))
  else if k%3 = 1 then UInt8.ofNat (f (2*(k/3))/256+16*(f (2*(k/3)+1)%16))
  else UInt8.ofNat (f (2*(k/3)+1)/16)

variable {m m' : Memory} {f : ℕ → ℕ} {c : ℕ}

/-- Reading an entry of a table in memory. -/
theorem fat12Next_packed (hf : ∀ n, f n < 4096) (hc : c < 3072)
    (h : ∀ k < 4608, m (fatBuf+k) = packed f k) : fat12Next m c = f c := by
  have hoffset : (c/2+c)%65536 = c/2+c := Nat.mod_eq_of_lt (by omega)
  have h0 : m (fatBuf+(c/2+c)) = packed f (c/2+c) := h _ (by omega)
  have h1 : m (fatBuf+(c/2+c)+1) = packed f (c/2+c+1) := h (c/2+c+1) (by omega)
  have hlow := hf (2*(c/2))
  have hhigh := hf (2*(c/2)+1)
  unfold fat12Next
  rw [hoffset]
  by_cases hodd : c%2 = 1
  · have hdiv : (c/2+c)/3 = c/2 := by omega
    have hdiv' : (c/2+c+1)/3 = c/2 := by omega
    have hself : 2*(c/2)+1 = c := by omega
    rw [if_pos hodd, read16, h0, h1, packed, packed, if_neg (by omega), if_pos (by omega),
      if_neg (by omega), if_neg (by omega), hdiv, hdiv', UInt8.toNat_ofNat', UInt8.toNat_ofNat']
    rw [hself] at hhigh ⊢
    omega
  · have hdiv : (c/2+c)/3 = c/2 := by omega
    have hdiv' : (c/2+c+1)/3 = c/2 := by omega
    have hself : 2*(c/2) = c := by omega
    rw [if_neg hodd, read16, h0, h1, packed, packed, if_pos (by omega), if_neg (by omega),
      if_pos (by omega), hdiv, hdiv', UInt8.toNat_ofNat', UInt8.toNat_ofNat']
    rw [hself] at hlow hhigh ⊢
    omega

end Packing

section Reading

variable {disk : ℕ → Memory} {m m' : Memory} {lba es bx n : ℕ}

/-- The parameters of the boot sector. -/
structure Standard (m : Memory) : Prop where
  cluster : sectorsPerCluster m = 1
  reserved : reservedSectors m = 1
  fats : numberOfFATs m = 2
  root : rootEntries m = 224
  total : totalSectors m = 2880
  fat : sectorsPerFAT m = 9
  track : sectorsPerTrack m = 18
  heads : headsPerCylinder m = 2
  magic : read16 m 0x7DFE = 0xAA55

/-- Nothing changes in the boot sector. -/
theorem Standard.frame (h : Standard m) (hm : ∀ k, 0x7C00 ≤ k → k < 0x7E00 → m' k = m k) : Standard m' := by
  have h16 : ∀ a, 0x7C00 ≤ a → a+1 < 0x7E00 → read16 m' a = read16 m a := by
    intro a ha ha'
    unfold read16
    rw [hm a ha (by omega), hm (a+1) (by omega) ha']
  have h8 : ∀ a, 0x7C00 ≤ a → a < 0x7E00 → (m' a).toNat = (m a).toNat := by
    intro a ha ha'
    rw [hm a ha ha']
  constructor
  case cluster => exact (h8 _ (by decide) (by decide)).trans h.cluster
  case reserved => exact (h16 _ (by decide) (by decide)).trans h.reserved
  case fats => exact (h8 _ (by decide) (by decide)).trans h.fats
  case root => exact (h16 _ (by decide) (by decide)).trans h.root
  case total => exact (h16 _ (by decide) (by decide)).trans h.total
  case fat => exact (h16 _ (by decide) (by decide)).trans h.fat
  case track => exact (h16 _ (by decide) (by decide)).trans h.track
  case heads => exact (h16 _ (by decide) (by decide)).trans h.heads
  case magic => exact (h16 _ (by decide) (by decide)).trans h.magic

/-- The address of a sector, there and back. -/
theorem readSector_eq (h : Standard m) (hlba : lba < 2880) :
    readSector disk m lba es bx = some (place m (es*16+bx) 512 (disk lba)) := by
  unfold readSector int13
  rw [h.track, h.heads]
  have hcl : (lba%18+1)%256 = lba%18+1 := Nat.mod_eq_of_lt (by omega)
  have hch : lba/18/2%256 = lba/18/2 := Nat.mod_eq_of_lt (by omega)
  have hdh : lba/18%2%256 = lba/18%2 := Nat.mod_eq_of_lt (by omega)
  have hsector : (lba%18+1)%64 = lba%18+1 := Nat.mod_eq_of_lt (by omega)
  have hcylinder : lba/18/2+256*((lba%18+1)/64) = lba/18/2 := by omega
  have hback : (lba/18/2*2+lba/18%2)*18+(lba%18+1-1) = lba := by omega
  simp only [hcl, hch, hdh, hsector, hcylinder, hback]
  rw [if_pos (by omega), Option.map_some]

/-- Sectors in memory one after the other. -/
def Loaded (disk : ℕ → Memory) (m m' : Memory) (a lba n : ℕ) : Prop :=
  (∀ k < 512*n, m' (a+k) = disk (lba+k/512) (k%512)) ∧ ∀ k, k < a ∨ a+512*n ≤ k → m' k = m k

/-- The loop of `read_sectors`, off the boot sector. -/
theorem readLoop_loaded (n lba bx : ℕ) (h : Standard m) (hlba : lba+n ≤ 2880)
    (hbx : bx+512*n < 65536) (hoff : bx+512*n ≤ 0x7C00 ∨ 0x7E00 ≤ bx) :
    ∃ m', readLoop disk n lba bx m = some m' ∧ Loaded disk m m' bx lba n := by
  induction n generalizing lba bx m with
  | zero => exact ⟨m, rfl, fun k hk => by omega, fun k _ => rfl⟩
  | succ n ih =>
    obtain ⟨m₁, hm₁⟩ : ∃ m₁, m₁ = place m (0*16+bx) 512 (disk lba) := ⟨_, rfl⟩
    have hin : ∀ k < 512, m₁ (bx+k) = disk lba k := by
      intro k hk
      rw [hm₁, Nat.zero_mul, Nat.zero_add]
      exact place_get m _ hk
    have hout : ∀ k, k < bx ∨ bx+512 ≤ k → m₁ k = m k := by
      intro k hk
      rw [hm₁, Nat.zero_mul, Nat.zero_add]
      exact place_ne m _ hk
    have hstandard : Standard m₁ := h.frame fun k hk hk' => hout k (by omega)
    obtain ⟨m', hread, hfilled, hframe⟩ := ih (lba+1) (bx+512) hstandard (by omega) (by omega)
      (by omega)
    have hlba' : (lba+1)%65536 = lba+1 := by omega
    have hbx' : (bx+512)%65536 = bx+512 := by omega
    refine ⟨m', ?_, ?_, ?_⟩
    · rw [readLoop, readSector_eq h (by omega), Option.bind_some, ← hm₁, hlba', hbx', hread]
    · intro k hk
      by_cases hfirst : k < 512
      · rw [hframe _ (by omega), hin k hfirst, Nat.div_eq_of_lt hfirst, Nat.mod_eq_of_lt hfirst,
          Nat.add_zero]
      · have haddr : bx+k = bx+512+(k-512) := by omega
        have hdiv : lba+1+(k-512)/512 = lba+k/512 := by omega
        have hmod : (k-512)%512 = k%512 := by omega
        calc
          m' (bx+k) = m' (bx+512+(k-512)) := congrArg m' haddr
          _ = disk (lba+1+(k-512)/512) ((k-512)%512) := hfilled (k-512) (by omega)
          _ = disk (lba+k/512) (k%512) := congrArg₂ disk hdiv hmod
    · intro k hk
      have hlow : k < bx+512 ∨ bx+512+512*n ≤ k := by omega
      have hfirst : k < bx ∨ bx+512 ≤ k := by
        have hone : bx+512 ≤ bx+512*(n+1) :=
          Nat.add_le_add_left (Nat.le_mul_of_pos_right 512 n.succ_pos) bx
        exact hk.imp id hone.trans
      exact (hframe k hlow).trans (hout k hfirst)

theorem readSectors_loaded (disk : ℕ → Memory) (lba bx n : ℕ) (h : Standard m) (hn : 0 < n)
    (hlba : lba+n ≤ 2880) (hbx : bx+512*n < 65536) (hoff : bx+512*n ≤ 0x7C00 ∨ 0x7E00 ≤ bx) :
    ∃ m', readSectors disk lba n bx m = some m' ∧ Loaded disk m m' bx lba n := by
  have hrounds : rounds n = n := if_neg (by omega)
  rw [readSectors, hrounds]
  exact readLoop_loaded n lba bx h hlba hbx hoff

/-- The first of `n` entries that has a name. -/
theorem search_first {name : List ℕ} {i di : ℕ} (hi : i < n) (hdi : di+32*n < 65536)
    (hfound : sameName m name (di+32*i)) (hfirst : ∀ j < i, ¬sameName m name (di+32*j)) :
    search m name n di = some (di+32*i) := by
  induction n generalizing i di with
  | zero => omega
  | succ n ih =>
    rw [search]
    cases i with
    | zero => exact if_pos hfound
    | succ i =>
      have hnext : ∀ j, di+32+32*j = di+32*(j+1) := by
        intro j
        omega
      have hwrap : (di+32)%65536 = di+32 := by omega
      have hno : ¬sameName m name di := by
        have h0 := hfirst 0 (Nat.zero_lt_succ i)
        rwa [Nat.mul_zero, Nat.add_zero] at h0
      rw [if_neg hno, hwrap, ← hnext]
      apply ih (by omega) (by omega)
      · rw [hnext]
        exact hfound
      · intro j hj
        rw [hnext]
        exact hfirst (j+1) (Nat.succ_lt_succ hj)

end Reading

section Loading

variable {disk : ℕ → Memory} {f : ℕ → ℕ} {m : Memory} {c j n : ℕ}

/-- A cluster of the disk. -/
def Good (c : ℕ) : Prop := 2 ≤ c ∧ c < 2849

/-- How the loop ends at a number that is no cluster of the disk. -/
def verdict (c : ℕ) (x : Memory×ℕ) : Except Failure (Memory×ℕ) :=
  if 0x0FF8 ≤ c then .ok x
  else if c < 2 ∨ 0x0FF0 ≤ c then .error .chainErr
  else .error .lbaErr

/-- The parameters and the table are in memory. -/
structure Ready (f : ℕ → ℕ) (m : Memory) : Prop where
  standard : Standard m
  table : ∀ k < 4608, m (fatBuf+k) = packed f k

theorem Ready.dataLba (h : Ready f m) : dataLba m = 33 := by
  rw [BootLoader.dataLba, rootLba, rootSize, h.standard.fats, h.standard.fat, h.standard.reserved,
    h.standard.root]

theorem Ready.place (h : Ready f m) (j : ℕ) (s : Memory) : Ready f (place m (0x10000+512*j) 512 s) := by
  have hlow : ∀ k < 0x10000, ByteMemory.place m (0x10000+512*j) 512 s k = m k := by
    intro k hk
    apply place_ne
    omega
  constructor
  · exact h.standard.frame fun k hk hk' => hlow k (by omega)
  · intro k hk
    rw [hlow (fatBuf+k) (by unfold fatBuf; omega)]
    exact h.table k hk

theorem loadLoop_end (h : Ready f m) (hbad : ¬Good c) (es fuel : ℕ) :
    loadLoop disk (fuel+1) c es j m = some (verdict c (m, j)) := by
  rw [loadLoop, verdict]
  by_cases hend : 0x0FF8 ≤ c
  · rw [if_pos hend, if_pos hend]
  · rw [if_neg hend, if_neg hend]
    by_cases hlow : c < 2
    · rw [if_pos hlow, if_pos (Or.inl hlow)]
    · rw [if_neg hlow]
      by_cases hhigh : 0x0FF0 ≤ c
      · rw [if_pos hhigh, if_pos (Or.inr hhigh)]
      · have hlba : 2880 ≤ ((c-2)*1+33)%65536 := by
          unfold Good at hbad
          omega
        rw [if_neg hhigh]
        simp only [h.standard.cluster, h.dataLba, h.standard.total]
        rw [if_pos hlba, if_neg (by omega)]

theorem loadLoop_next (h : Ready f m) (hf : ∀ n, f n < 4096) (hgood : Good c) (hj : j < 1152) (fuel : ℕ) :
    loadLoop disk (fuel+1) c (0x1000+0x20*j) j m = loadLoop disk fuel (f c) (0x1000+0x20*(j+1)) (j+1)
      (place m (0x10000+512*j) 512 (disk (c+31))) := by
  obtain ⟨hlow, hhigh⟩ := hgood
  have hlba : ((c-2)*1+33)%65536 = c+31 := by omega
  have haddr : (0x1000+0x20*j)*16+0 = 0x10000+512*j := by omega
  have hes : (0x1000+0x20*j+0x20)%65536 = 0x1000+0x20*(j+1) := by omega
  have hbp : (j+1)%65536 = j+1 := by omega
  have hnext : fat12Next (place m (0x10000+512*j) 512 (disk (c+31))) c = f c :=
    fat12Next_packed hf (by omega) (h.place j _).table
  rw [loadLoop, if_neg (by omega), if_neg (by omega), if_neg (by omega)]
  simp only [h.standard.cluster, h.dataLba, h.standard.total, hlba]
  rw [if_neg (by omega), readSector_eq h.standard (by omega), haddr]
  change loadLoop disk fuel (fat12Next _ c) _ _ _ = _
  rw [hnext, hes, hbp]

/-- The loop follows the table from a cluster to the first number that is no cluster of the disk. -/
theorem loadLoop_chain (disk : ℕ → Memory) (n c j : ℕ) (hf : ∀ n, f n < 4096) (h : Ready f m)
    (hchain : ∀ i < n, Good (f^[i] c)) (hend : ¬Good (f^[n] c)) (hroom : j+n ≤ 1152) :
    ∃ m', (∀ fuel, n < fuel → loadLoop disk fuel c (0x1000+0x20*j) j m =
        some (verdict (f^[n] c) (m', j+n))) ∧ Ready f m' ∧
      (∀ i < n, ∀ k < 512, m' (0x10000+512*(j+i)+k) = disk (f^[i] c+31) k) ∧
      ∀ k < 0x10000+512*j, m' k = m k := by
  induction n generalizing c j m with
  | zero =>
    refine ⟨m, ?_, h, fun i hi => by omega, fun k _ => rfl⟩
    intro fuel hfuel
    obtain ⟨e, rfl⟩ := Nat.exists_eq_add_of_lt hfuel
    rw [Nat.zero_add]
    exact loadLoop_end h hend _ e
  | succ n ih =>
    have hgood : Good c := hchain 0 (Nat.zero_lt_succ n)
    have hrest : ∀ i < n, Good (f^[i] (f c)) := by
      intro i hi
      rw [← Function.iterate_succ_apply]
      exact hchain (i+1) (Nat.succ_lt_succ hi)
    rw [Function.iterate_succ_apply] at hend ⊢
    obtain ⟨m', hloop, hready, hloaded, hbelow⟩ := ih (f c) (j+1) (h.place j (disk (c+31))) hrest hend
      (by omega)
    refine ⟨m', ?_, hready, ?_, ?_⟩
    · intro fuel hfuel
      obtain ⟨e, rfl⟩ : ∃ e, fuel = e+1 := ⟨fuel-1, by omega⟩
      rw [loadLoop_next h hf hgood (by omega), hloop e (by omega), Nat.add_right_comm, Nat.add_assoc]
    · intro i hi k hk
      cases i with
      | zero =>
        have hsector : 0x10000+512*(j+0)+k < 0x10000+512*(j+1) := by omega
        rw [hbelow _ hsector]
        exact place_get m _ hk
      | succ i =>
        have hindex : j+1+i = j+(i+1) := by omega
        have hread := hloaded i (Nat.lt_of_succ_lt_succ hi) k hk
        rwa [hindex, ← Function.iterate_succ_apply] at hread
    · intro k hk
      rw [hbelow k (by omega)]
      exact place_ne m _ (Or.inl hk)

end Loading

section Booting

variable {disk : ℕ → Memory} {f : ℕ → ℕ} {m : Memory} {c n i : ℕ}

/-- The root directory, from sector 19 on. -/
def dirByte (disk : ℕ → Memory) (a : ℕ) : UInt8 := disk (19+a/512) (a%512)

def Named (disk : ℕ → Memory) (name : List ℕ) (i : ℕ) : Prop :=
  ∀ k < 11, (dirByte disk (32*i+k)).toNat = name.getD k 0

def firstCluster (disk : ℕ → Memory) (i : ℕ) : ℕ :=
  (dirByte disk (32*i+26)).toNat+256*(dirByte disk (32*i+26+1)).toNat

/-- A disk with the table `f` on which both files are found, the second stage in one piece; the
kernel has one of the first 16 entries, as the second stage is loaded over the others. -/
structure Image (disk : ℕ → Memory) (f : ℕ → ℕ) (c : ℕ) : Prop where
  entries : ∀ n, f n < 4096
  table : ∀ k < 4608, disk (1+k/512) (k%512) = packed f k
  stage2 : ∃ i < 224, Named disk stage2Name i ∧ (∀ j < i, ¬Named disk stage2Name j) ∧
    2 ≤ firstCluster disk i ∧ firstCluster disk i+39 ≤ 2880
  kernel : ∃ i < 16, Named disk kernelName i ∧ (∀ j < i, ¬Named disk kernelName j) ∧
    firstCluster disk i = c

/-- Entries that are in memory are read as they are on the disk. -/
theorem entry_read {bound : ℕ} (h : ∀ a < 32*bound, m (0x7E00+a) = dirByte disk a) (hi : i < bound) :
    (∀ name, sameName m name (0x7E00+32*i) ↔ Named disk name i) ∧
      read16 m (0x7E00+32*i+26) = firstCluster disk i := by
  have hbyte : ∀ k < 32, m (0x7E00+32*i+k) = dirByte disk (32*i+k) := by
    intro k hk
    rw [Nat.add_assoc]
    apply h
    omega
  constructor
  · intro name
    unfold sameName Named
    constructor
    · intro hname k hk
      rw [← hbyte k (by omega)]
      exact hname k hk
    · intro hname k hk
      rw [hbyte k (by omega)]
      exact hname k hk
  · have h1 : m (0x7E00+32*i+26+1) = dirByte disk (32*i+26+1) := hbyte 27 (by decide)
    rw [read16, firstCluster, hbyte 26 (by decide), h1]

theorem search_entry {name : List ℕ} {bound : ℕ} (h : ∀ a < 32*bound, m (0x7E00+a) = dirByte disk a)
    (hbound : bound ≤ 224) (hi : i < bound) (hname : Named disk name i)
    (hfirst : ∀ j < i, ¬Named disk name j) :
    search m name (rounds 224) 0x7E00 = some (0x7E00+32*i) := by
  apply search_first (n := 224) (by omega) (by decide)
  · exact ((entry_read h hi).1 name).mpr hname
  · intro j hj hsame
    exact hfirst j hj (((entry_read h (hj.trans hi)).1 name).mp hsame)

/-- The first stage over any reads and any search: with those of the stage in place the matches
would be compared by unfolding them. -/
theorem stage1_found (read : ℕ → ℕ → ℕ → Memory → Option Memory)
    (find : Memory → List ℕ → ℕ → ℕ → Option ℕ) {m₁ m₂ : Memory} {di ax : ℕ}
    (hroot : read (rootLba m) (rootSize m) 0x7E00 m = some m₁)
    (hsearch : find m₁ stage2Name (rounds (rootEntries m₁)) 0x7E00 = some di)
    (hax : (read16 m₁ (di+26)+65534+rootLba m₁+rootSize m₁)%65536 = ax)
    (hstage2 : read ax 8 0x8000 m₁ = some m₂) :
    (match read (rootLba m) (rootSize m) 0x7E00 m with
    | none => Except.error Failure.diskErr
    | some m =>
      match find m stage2Name (rounds (rootEntries m)) 0x7E00 with
      | none => .error .noStage2
      | some di =>
        let ax := (read16 m (di+26)+65534+rootLba m+rootSize m)%65536
        match read ax 8 0x8000 m with
        | none => .error .diskErr
        | some m => .ok m) = .ok m₂ := by
  simp only [hroot, hsearch, hax, hstage2]

/-- The first stage leaves the boot sector and the first 16 entries of the directory. -/
theorem stage1_loads (hm : Standard m) (himage : Image disk f c) : ∃ m', stage1 disk m = .ok m' ∧
    Standard m' ∧ ∀ a < 32*16, m' (0x7E00+a) = dirByte disk a := by
  obtain ⟨i, hi, hname, hfirst, hlow, hhigh⟩ := himage.stage2
  have hlba : rootLba m = 19 := by rw [rootLba, hm.fats, hm.fat, hm.reserved]
  have hsize : rootSize m = 14 := by rw [rootSize, hm.root]
  obtain ⟨m₁, hread₁, hroot, hframe₁⟩ := readSectors_loaded disk 19 0x7E00 14 hm (by decide) (by decide)
    (by decide) (by decide)
  have hm₁ : Standard m₁ := hm.frame fun k hk hk' => hframe₁ k (Or.inl hk')
  have hdir : ∀ a < 32*224, m₁ (0x7E00+a) = dirByte disk a := hroot
  have hax : (firstCluster disk i+65534+19+14)%65536 = firstCluster disk i+31 := by omega
  obtain ⟨m₂, hread₂, -, hframe₂⟩ := readSectors_loaded disk (firstCluster disk i+31) 0x8000 8 hm₁
    (by decide) (by omega) (by decide) (by decide)
  refine ⟨m₂, ?_, hm₁.frame fun k hk hk' => hframe₂ k (Or.inl (by omega)), ?_⟩
  · have hsearch := search_entry hdir (le_refl 224) hi hname hfirst
    have hcluster := (entry_read hdir hi).2
    have hlba₁ : rootLba m₁ = 19 := by rw [rootLba, hm₁.fats, hm₁.fat, hm₁.reserved]
    have hsize₁ : rootSize m₁ = 14 := by rw [rootSize, hm₁.root]
    rw [← hlba, ← hsize] at hread₁
    rw [← hm₁.root] at hsearch
    exact stage1_found (readSectors disk) search hread₁ hsearch
      (by rw [hcluster, hlba₁, hsize₁, hax]) hread₂
  · intro a ha
    rw [hframe₂ _ (Or.inl (by omega))]
    exact hdir a (by omega)

/-- How the boot ends when the chain of the kernel leaves the clusters of the disk after `n`. -/
def outcome (n c : ℕ) (x : Memory×ℕ) : Except Failure (Memory×ℕ) :=
  if n = 0 ∧ (c < 2 ∨ 0x0FF0 ≤ c) then .error .badCluster else verdict c x

theorem stage2_loads (hm : Standard m) (hdir : ∀ a < 32*16, m (0x7E00+a) = dirByte disk a)
    (himage : Image disk f c) (hchain : ∀ i < n, Good (f^[i] c)) (hend : ¬Good (f^[n] c))
    (hroom : n ≤ 1152) :
    ∃ m', (∀ fuel, n < fuel → stage2 disk fuel m = some (outcome n (f^[n] c) (m', n))) ∧
      ∀ i < n, ∀ k < 512, m' (0x10000+512*i+k) = disk (f^[i] c+31) k := by
  obtain ⟨i, hi, hname, hfirst, hcluster⟩ := himage.kernel
  obtain ⟨m₁, hread, hfat, hframe⟩ := readSectors_loaded disk 1 fatBuf 9 hm (by decide) (by decide)
    (by decide) (by decide)
  have hm₁ : Standard m₁ := hm.frame fun k hk hk' => hframe k (Or.inr (by
    change 0x2000+512*9 ≤ k
    omega))
  have hdir₁ : ∀ a < 32*16, m₁ (0x7E00+a) = dirByte disk a := by
    intro a ha
    rw [hframe _ (Or.inr (by change 0x2000+512*9 ≤ 0x7E00+a; omega))]
    exact hdir a ha
  have hready : Ready f m₁ := ⟨hm₁, fun k hk => (hfat k hk).trans (himage.table k hk)⟩
  have hsearch := search_entry hdir₁ (by decide) hi hname hfirst
  have hstart : read16 m₁ (0x7E00+32*i+26) = c := (entry_read hdir₁ hi).2.trans hcluster
  obtain ⟨m', hloop, hready', hloaded, -⟩ := loadLoop_chain disk n c 0 himage.entries hready
    hchain hend (by omega)
  have hstage : ∀ fuel, stage2 disk fuel m = if c < 2 ∨ 0x0FF0 ≤ c then some (.error .badCluster)
      else (loadLoop disk fuel c 0x1000 0 m₁).map fun r =>
        r.bind fun x => if read16 x.1 0x7DFE = 0xAA55 then .ok x else .error .badMagic := by
    intro fuel
    rw [stage2, hm.reserved, hm.fat, hread]
    simp only [hm₁.root, hsearch, hstart]
  refine ⟨m', ?_, ?_⟩
  · intro fuel hfuel
    have hrun := hloop fuel hfuel
    rw [Nat.zero_add, Nat.mul_zero, Nat.add_zero] at hrun
    rw [hstage fuel, outcome]
    by_cases hbad : c < 2 ∨ 0x0FF0 ≤ c
    · have hzero : n = 0 := by
        cases n with
        | zero => rfl
        | succ n =>
          have hgood : Good c := hchain 0 (Nat.zero_lt_succ n)
          unfold Good at hgood
          omega
      subst hzero
      rw [if_pos hbad, if_pos ⟨rfl, hbad⟩]
    · have hno : ¬(n = 0 ∧ (f^[n] c < 2 ∨ 0x0FF0 ≤ f^[n] c)) := by
        rintro ⟨rfl, hbad'⟩
        exact hbad hbad'
      rw [if_neg hbad, if_neg hno, hrun, Option.map_some, verdict]
      split_ifs
      · change some (if read16 m' 0x7DFE = 0xAA55 then _ else _) = _
        rw [if_pos hready'.standard.magic]
      · rfl
      · rfl
  · intro k hk
    have hread := hloaded k hk
    rwa [Nat.zero_add] at hread

/-- A table with a file of the clusters 5 and 6. -/
def smallTable (n : ℕ) : ℕ := if n = 5 then 6 else if n = 6 then 0xFFF else 0

/-- The two entries of a small directory. -/
def smallRoot : List ℕ :=
  stage2Name++List.replicate 15 0++[2, 0]++List.replicate 4 0++
    (kernelName++List.replicate 15 0++[5, 0]++List.replicate 4 0)

def smallDisk (l k : ℕ) : UInt8 :=
  if 1 ≤ l ∧ l < 10 then packed smallTable (512*(l-1)+k)
  else if l = 19 then UInt8.ofNat (smallRoot.getD k 0)
  else UInt8.ofNat l

def bootSector (k : ℕ) : UInt8 :=
  if k = 0x7DFE then 0x55
  else if k = 0x7DFF then 0xAA
  else UInt8.ofNat ([1, 1, 0, 2, 224, 0, 64, 11, 0xF0, 9, 0, 18, 0, 2, 0].getD (k-0x7C0D) 0)

theorem bootSector_standard : Standard bootSector := ⟨rfl, rfl, rfl, rfl, rfl, rfl, rfl, rfl, rfl⟩

theorem smallDisk_image : Image smallDisk smallTable 5 := by
  constructor
  case entries =>
    intro n
    unfold smallTable
    split_ifs <;> decide
  case table =>
    intro k hk
    have hindex : 512*(1+k/512-1)+k%512 = k := by omega
    unfold smallDisk
    rw [if_pos (by omega), hindex]
  case stage2 =>
    refine ⟨0, by decide, by unfold Named; decide, fun j hj => absurd hj (Nat.not_lt_zero j), by decide,
      by decide⟩
  case kernel =>
    refine ⟨1, by decide, by unfold Named; decide, ?_, by decide⟩
    intro j hj hname
    have hzero : j = 0 := by omega
    have hfirst := hname 0 (by decide)
    rw [hzero] at hfirst
    exact absurd hfirst (by decide)

end Booting

end Vlsmc.BootChain
