import Vlsmc.ChainListings
import Vlsmc.Fat16Mount
import Vlsmc.Fat16Runs

/-!
# Which walks along a chain end

The readers carry a count of the bytes read. Where every round of a loop adds to it the loop ends
on any chain; `read_file` adds nothing once the file is used up, and goes on along the chain when
the buffer is not full by then. From the loops of all seven functions follows when each returns.
-/

set_option autoImplicit false

namespace Vlsmc.ChainTermination
open Vlsmc.Fat16Layout Vlsmc.Fat16Names Vlsmc.Fat16Volume Vlsmc.Fat16Geometry Vlsmc.Fat16Mount
open Vlsmc.SuccessorChain Vlsmc.ChainLoops Vlsmc.ChainCalls Vlsmc.ChainListings Vlsmc.Words
open Vlsmc.Fat16Files hiding readEntry fat16Read
open Vlsmc.Fat16Readers hiding readFile readFileOffset

section Counting

variable {v : Volume}

/-- The loop of `stat_file`. -/
def lengthLoop (v : Volume) : Loop ℕ ℕ ℕ where
  next := v.fat
  go := fun c _ => inChain c
  body := fun _ n => .inr (n+1)
  result := fun _ n => n

theorem lengthLoop_run (fuel c n : ℕ) : chainLength v fuel c n = (lengthLoop v).run fuel c n := by
  induction fuel generalizing c n with
  | zero => rfl
  | succ fuel ih =>
    rw [chainLength, Loop.run, ih]
    rfl

theorem length_returns_iff {c n : ℕ} : (lengthLoop v).Returns c n ↔ ChainEnds v c := by
  constructor
  · apply Loop.returns_rec
    · exact fun c n hgo => ⟨0, hgo⟩
    · intro c n r hgo hb
      cases hb
    · exact fun c n n' hgo hb hends => (chainEnds_next hgo).mpr hends
  · exact fun ⟨k, hk⟩ => @Loop.returns_chain _ _ _ _ c n (fun c => inChain c = false)
      (fun c n hc => hc) k hk

theorem stat_returns_iff (name : List UInt8) :
    (Call.statFile name).Returns v ↔ (Call.statFile name).Bounded v := by
  change (∃ fuel r, statFile fuel v name = some r) ↔ v.mounted = false ∨ _
  by_cases hm : v.mounted = false
  · exact iff_of_true ⟨0, none, if_pos hm⟩ (Or.inl hm)
  rw [or_iff_right hm]
  have hroot : ∀ fuel, findDirEntry fuel v 0 name = v.findDirEntry 0 name := fun fuel => by
    rw [findDirEntry, Volume.findDirEntry, if_neg hm, if_neg hm, if_pos rfl, if_pos rfl]
  constructor
  · rintro ⟨fuel, r, hr⟩ p hp
    rw [statFile, if_neg hm, hroot, hp] at hr
    dsimp only at hr
    split at hr
    · cases hr
    · next n hn =>
      rw [lengthLoop_run] at hn
      exact length_returns_iff.mp ⟨fuel, n, hn⟩
  · intro hends
    cases hfind : v.findDirEntry 0 name with
    | none =>
      rw [Volume.findDirEntry, if_neg hm, if_pos rfl] at hfind
      cases hfind
    | some found =>
      cases found with
      | none => exact ⟨0, none, by rw [statFile, if_neg hm, hroot, hfind]⟩
      | some p =>
        obtain ⟨fuel, n, hn⟩ := length_returns_iff.mpr (hends p hfind)
        rw [← lengthLoop_run] at hn
        exact ⟨fuel, _, by rw [statFile, if_neg hm, hroot, hfind]; dsimp only; rw [hn]⟩

end Counting

section Files

variable {v : Volume} {fileSize maxSize : ℕ}

/-- The cluster loop of `read_file`. -/
def wholeLoop (v : Volume) (fileSize maxSize : ℕ) : Loop ℕ (List UInt8) (ℤ × List UInt8) where
  next := v.fat
  go := fun c buf => inChain c ∧ buf.length < maxSize
  body := fun c buf =>
    match fileSectors v.disk (v.bpb.clusterToLba c) fileSize maxSize v.bpb.spc 0 buf with
    | .error b => .inl (toInt32 b.length, b)
    | .ok b => .inr b
  result := fun _ buf => (toInt32 buf.length, buf)

theorem wholeLoop_run (fuel c : ℕ) (buf : List UInt8) :
    fileLoop v fileSize maxSize fuel c buf = (wholeLoop v fileSize maxSize).run fuel c buf := by
  induction fuel generalizing c buf with
  | zero => rfl
  | succ fuel ih =>
    rw [fileLoop, Loop.run]
    by_cases hgo : inChain c ∧ buf.length < maxSize
    · rw [if_pos hgo, if_pos (show (wholeLoop v fileSize maxSize).go c buf = true from
        decide_eq_true hgo)]
      dsimp only [wholeLoop]
      cases fileSectors v.disk (v.bpb.clusterToLba c) fileSize maxSize v.bpb.spc 0 buf with
      | error b => rfl
      | ok b => exact ih (v.fat c) b
    · rw [if_neg hgo, if_neg (by simpa [wholeLoop] using hgo)]
      rfl

/-- The bytes that a round of `read_file` copies. -/
def copied (fileSize maxSize n : ℕ) : ℕ :=
  let toCopy := if fileSize < u32 (n+512) then fileSize-n else 512
  if maxSize < u32 (n+toCopy) then maxSize-n else toCopy

theorem copied_pos {n : ℕ} (hmax : n < maxSize) (hfile : n < fileSize) :
    0 < copied fileSize maxSize n := by
  unfold copied
  dsimp only
  split_ifs <;> omega

theorem copied_short {n : ℕ} (hroom : maxSize+512 ≤ 4294967296) (hfile : n < fileSize)
    (hmax : fileSize < maxSize) : copied fileSize maxSize n = min 512 (fileSize-n) := by
  unfold copied
  dsimp only
  rw [u32_of_lt (show n+512 < 4294967296 by omega)]
  have hfit : ∀ k, n+k ≤ fileSize → u32 (n+k) = n+k := fun k hk => u32_of_lt (by omega)
  split_ifs with h1 h2 h2
  · rw [hfit _ (by omega)] at h2
    omega
  · omega
  · rw [hfit _ (by omega)] at h2
    omega
  · omega

theorem fileSectors_round (d : Disk) (lba n s : ℕ) (buf : List UInt8) :
    fileSectors d lba fileSize maxSize (n+1) s buf =
      if maxSize ≤ buf.length then .ok buf
      else if fileSize ≤ buf.length then .ok buf
      else
        match d.read (u32 (lba+s)) with
        | none => .error buf
        | some sec => fileSectors d lba fileSize maxSize n (s+1)
            (buf++(List.range (copied fileSize maxSize buf.length)).map sec) := rfl

theorem fileSectors_grows {d : Disk} {lba n s : ℕ} {buf b : List UInt8}
    (h : fileSectors d lba fileSize maxSize n s buf = .ok b) :
    buf.length ≤ b.length ∧
      (0 < n → buf.length < maxSize → buf.length < fileSize → buf.length < b.length) := by
  induction n generalizing s buf with
  | zero =>
    obtain rfl := Except.ok.inj h
    exact ⟨le_refl _, fun hn => absurd hn (Nat.lt_irrefl 0)⟩
  | succ n ih =>
    rw [fileSectors_round] at h
    split_ifs at h with hmax hfile
    · obtain rfl := Except.ok.inj h
      exact ⟨le_refl _, fun _ hlt => absurd hlt (Nat.not_lt.mpr hmax)⟩
    · obtain rfl := Except.ok.inj h
      exact ⟨le_refl _, fun _ _ hlt => absurd hlt (Nat.not_lt.mpr hfile)⟩
    · split at h
      · cases h
      · next sec hread =>
        have hle := (ih h).1
        have hpos := copied_pos (Nat.lt_of_not_le hmax) (Nat.lt_of_not_le hfile)
        simp only [List.length_append, List.length_map, List.length_range] at hle
        exact ⟨by omega, fun _ _ _ => by omega⟩

/-- A file longer than the buffer is left when the buffer is full. -/
theorem whole_returns_full (hspc : 1 ≤ v.bpb.spc) (hle : maxSize ≤ fileSize) (c : ℕ)
    (buf : List UInt8) : (wholeLoop v fileSize maxSize).Returns c buf := by
  refine @Loop.returns_measure _ _ _ _ c buf (fun _ _ => True) (fun b => maxSize-b.length)
    (fun c b b' _ hgo hb => ⟨trivial, ?_⟩) trivial
  have hlt : b.length < maxSize := by
    simp [wholeLoop] at hgo
    exact hgo.2
  dsimp only [wholeLoop] at hb
  split at hb
  · cases hb
  · next b'' hok =>
    obtain rfl := Sum.inr.inj hb
    have hgrow := (fileSectors_grows hok).2 (by omega) hlt (by omega)
    omega

/-- What `read_file` does with a cluster of a shorter file: it reads the sectors that hold a part
of the file, or fails at one of them. -/
theorem fileSectors_short {d : Disk} {lba n s m : ℕ} {buf : List UInt8}
    (hroom : maxSize+512 ≤ 4294967296) (hshort : fileSize < maxSize)
    (hlen : buf.length = min (512*m) fileSize) :
    ((∃ b, fileSectors d lba fileSize maxSize n s buf = .ok b ∧
        b.length = min (512*(m+n)) fileSize) ∧
      ∀ j < n, 512*(m+j) < fileSize → u32 (lba+(s+j)) < d.size) ∨
    (∃ b, fileSectors d lba fileSize maxSize n s buf = .error b) ∧
      ∃ j < n, 512*(m+j) < fileSize ∧ d.size ≤ u32 (lba+(s+j)) := by
  induction n generalizing s m buf with
  | zero => exact Or.inl ⟨⟨buf, rfl, hlen⟩, fun j hj => absurd hj (Nat.not_lt_zero j)⟩
  | succ n ih =>
    rw [fileSectors_round, if_neg (by omega)]
    by_cases hend : fileSize ≤ buf.length
    · refine Or.inl ⟨⟨buf, if_pos hend, by omega⟩, fun j _ hj => ?_⟩
      omega
    · have hm : buf.length = 512*m := by omega
      rw [if_neg hend]
      by_cases hread : u32 (lba+s) < d.size
      · rw [Disk.read, if_pos hread]
        dsimp only
        have hcount := @copied_short fileSize maxSize buf.length hroom (by omega) hshort
        have hlen' : (buf++(List.range (copied fileSize maxSize buf.length)).map
            (d.data (u32 (lba+s)))).length = min (512*(m+1)) fileSize := by
          rw [List.length_append, List.length_map, List.length_range, hcount, hm]
          omega
        have hshift : ∀ j, u32 (lba+(s+1+j)) = u32 (lba+(s+(j+1))) := fun j => by
          rw [Nat.add_assoc s, Nat.add_comm 1]
        rcases ih (s := s+1) hlen' with ⟨⟨b, hb, hbl⟩, hall⟩ | ⟨⟨b, hb⟩, j, hj, hpart, hfail⟩
        · refine Or.inl ⟨⟨b, hb, by omega⟩, fun j hj hpart => ?_⟩
          cases j with
          | zero => exact hread
          | succ j =>
            rw [← hshift]
            exact hall j (by omega) (by omega)
        · refine Or.inr ⟨⟨b, hb⟩, j+1, by omega, by omega, ?_⟩
          rwa [← hshift]
      · rw [Disk.read, if_neg hread]
        exact Or.inr ⟨⟨buf, rfl⟩, 0, Nat.succ_pos n, by omega, Nat.le_of_not_lt hread⟩

theorem chainSector_first {c j : ℕ} (h : j < v.bpb.spc) :
    chainSector v c j = u32 (v.bpb.clusterToLba c+(0+j)) := by
  rw [chainSector, Nat.div_eq_of_lt h, Nat.mod_eq_of_lt h, Nat.zero_add]
  rfl

theorem chainSector_next (hspc : 1 ≤ v.bpb.spc) (c k : ℕ) :
    chainSector v (v.fat c) k = chainSector v c (k+v.bpb.spc) := by
  rw [chainSector, chainSector, Nat.add_div_right k hspc, Nat.add_mod_right]
  rfl

/-- The sectors of the rest of the file, one of which cannot be read. -/
def Unreadable (v : Volume) (fileSize m c : ℕ) : Prop :=
  ∃ k, 512*(m+k) < fileSize ∧ v.disk.size ≤ chainSector v c k

/-- A file shorter than the buffer is left at the end of its chain or at a sector that cannot be
read. -/
theorem whole_returns_iff (hspc : 1 ≤ v.bpb.spc) (hroom : maxSize+512 ≤ 4294967296)
    (hshort : fileSize < maxSize) {c m : ℕ} {buf : List UInt8}
    (hlen : buf.length = min (512*m) fileSize) :
    (wholeLoop v fileSize maxSize).Returns c buf ↔ ChainEnds v c ∨ Unreadable v fileSize m c := by
  have hgo : ∀ {c b} {m : ℕ}, b.length = min (512*m) fileSize → inChain c = true →
      (wholeLoop v fileSize maxSize).go c b = true := fun hb hc => by
    simp only [wholeLoop, decide_eq_true_eq]
    exact ⟨hc, by omega⟩
  constructor
  · intro hr
    refine Loop.returns_rec (P := fun c b => ∀ m, b.length = min (512*m) fileSize →
      ChainEnds v c ∨ Unreadable v fileSize m c) ?_ ?_ ?_ hr m hlen
    · intro c b hstop m hb
      refine Or.inl ⟨0, ?_⟩
      by_contra hc
      rw [hgo hb (by simpa using hc)] at hstop
      cases hstop
    · intro c b r _ hbody m hb
      rcases @fileSectors_short fileSize maxSize v.disk (v.bpb.clusterToLba c) v.bpb.spc 0 m b
        hroom hshort hb with ⟨⟨b', hok, -⟩, -⟩ | ⟨-, j, hj, hpart, hfail⟩
      · simp only [wholeLoop, hok] at hbody
        cases hbody
      · exact Or.inr ⟨j, hpart, by rwa [chainSector_first hj]⟩
    · intro c b b' hg hbody hrest m hb
      have hc : inChain c = true := by
        simp [wholeLoop] at hg
        exact hg.1
      rcases @fileSectors_short fileSize maxSize v.disk (v.bpb.clusterToLba c) v.bpb.spc 0 m b
        hroom hshort hb with ⟨⟨b'', hok, hb''⟩, -⟩ | ⟨⟨b'', herr⟩, -⟩
      · simp only [wholeLoop, hok] at hbody
        obtain rfl := Sum.inr.inj hbody
        rcases hrest _ hb'' with hends | ⟨k, hpart, hfail⟩
        · exact Or.inl ((chainEnds_next hc).mpr hends)
        · refine Or.inr ⟨k+v.bpb.spc, by omega, ?_⟩
          rwa [← chainSector_next hspc]
      · simp only [wholeLoop, herr] at hbody
        cases hbody
  · rintro (⟨n, hn⟩ | ⟨k, hpart, hfail⟩)
    · exact @Loop.returns_chain _ _ _ _ c buf (fun c => inChain c = false)
        (fun c b hc => by simp [wholeLoop, hc]) n hn
    · -- the sector that fails comes nearer with every cluster
      induction k using Nat.strongRecOn generalizing c m buf with
      | ind k ih =>
        by_cases hc : inChain c = true
        · rcases @fileSectors_short fileSize maxSize v.disk (v.bpb.clusterToLba c) v.bpb.spc 0 m
            buf hroom hshort hlen with ⟨⟨b, hok, hb⟩, hall⟩ | ⟨⟨b, herr⟩, -⟩
          · have hfar : v.bpb.spc ≤ k := by
              by_contra hnear
              have hlt := hall k (by omega) hpart
              rw [chainSector_first (by omega)] at hfail
              omega
            have hbody : (wholeLoop v fileSize maxSize).body c buf = .inr b := by
              simp only [wholeLoop, hok]
            apply (Loop.returns_next (hgo hlen hc) hbody).mpr
            refine ih (k-v.bpb.spc) (by omega) hb (by omega) ?_
            change v.disk.size ≤ chainSector v (v.fat c) (k-v.bpb.spc)
            rwa [chainSector_next hspc, Nat.sub_add_cancel hfar]
          · exact Loop.returns_early (r := (toInt32 b.length, b)) (by simp only [wholeLoop, herr])
        · exact Loop.returns_stop (by simp [wholeLoop, hc])

theorem file_returns_iff (hspc : 1 ≤ v.bpb.spc) (name : List UInt8) (maxSize : ℕ)
    (hroom : maxSize+512 ≤ 4294967296) :
    (Call.readFile name maxSize).Returns v ↔ (Call.readFile name maxSize).Bounded v := by
  change (∃ fuel r, readFile fuel v name maxSize = some r) ↔ v.mounted = false ∨ _
  by_cases hm : v.mounted = false
  · exact iff_of_true ⟨0, _, if_pos hm⟩ (Or.inl hm)
  rw [or_iff_right hm]
  cases hfound : foundEntry v name with
  | none =>
    exact iff_of_true ⟨0, (-1, []), by rw [readFile, if_neg hm, hfound]⟩ (fun e he => by cases he)
  | some e =>
    have hloop : (∃ fuel r, readFile fuel v name maxSize = some r) ↔
        (wholeLoop v e.fileSize.toNat maxSize).Returns e.cluster [] := by
      simp only [readFile, if_neg hm, hfound, wholeLoop_run]
      rfl
    rw [hloop]
    have hsome : (∀ e', some e = some e' → ChainEnds v e'.cluster ∨
        maxSize ≤ e'.fileSize.toNat ∨ ∃ k, 512*k < e'.fileSize.toNat ∧
          v.disk.size ≤ chainSector v e'.cluster k) ↔
        (ChainEnds v e.cluster ∨ maxSize ≤ e.fileSize.toNat ∨
          Unreadable v e.fileSize.toNat 0 e.cluster) := by
      simp only [Unreadable, Nat.zero_add, Option.some.injEq, forall_eq']
    rw [hsome]
    by_cases hlong : maxSize ≤ e.fileSize.toNat
    · exact iff_of_true (whole_returns_full hspc hlong _ _) (Or.inr (Or.inl hlong))
    · rw [whole_returns_iff hspc hroom (Nat.lt_of_not_le hlong)
        (show ([] : List UInt8).length = min (512*0) _ from (Nat.zero_min _).symm),
        or_iff_right hlong]

end Files

section Offsets

variable {v : Volume} {size : ℕ}

/-- The cluster loop of `read_file_offset`. -/
def partLoop (v : Volume) (size : ℕ) : Loop ℕ (List UInt8 × ℕ) (ℤ × List UInt8) where
  next := v.fat
  go := fun c b => inChain c ∧ b.1.length < size
  body := fun c b =>
    match offsetSectors v.disk (v.bpb.clusterToLba c) size (v.bpb.spc-b.2/512%256) (b.2/512%256)
        b.1 (b.2%512) with
    | .error b => .inl (toInt32 b.length, b)
    | .ok b => .inr (b, 0)
  result := fun _ b => (toInt32 b.1.length, b.1)

theorem partLoop_run (fuel c : ℕ) (b : List UInt8 × ℕ) :
    offsetLoop v size fuel c b.1 b.2 = (partLoop v size).run fuel c b := by
  induction fuel generalizing c b with
  | zero => rfl
  | succ fuel ih =>
    rw [offsetLoop, Loop.run]
    by_cases hgo : inChain c ∧ b.1.length < size
    · rw [if_pos hgo, if_pos (show (partLoop v size).go c b = true from decide_eq_true hgo)]
      dsimp only [partLoop]
      cases offsetSectors v.disk (v.bpb.clusterToLba c) size (v.bpb.spc-b.2/512%256)
          (b.2/512%256) b.1 (b.2%512) with
      | error b' => rfl
      | ok b' => exact ih (v.fat c) (b', 0)
    · rw [if_neg hgo, if_neg (by simpa [partLoop] using hgo)]
      rfl

theorem offsetSectors_grows {d : Disk} {lba n s skip : ℕ} {buf b : List UInt8} (hskip : skip < 512)
    (h : offsetSectors d lba size n s buf skip = .ok b) :
    buf.length ≤ b.length ∧ (0 < n → buf.length < size → buf.length < b.length) := by
  induction n generalizing s buf skip with
  | zero =>
    obtain rfl := Except.ok.inj h
    exact ⟨le_refl _, fun hn => absurd hn (Nat.lt_irrefl 0)⟩
  | succ n ih =>
    rw [offsetSectors] at h
    split_ifs at h with hfull
    · obtain rfl := Except.ok.inj h
      exact ⟨le_refl _, fun _ hlt => absurd hlt (Nat.not_lt.mpr hfull)⟩
    · split at h
      · cases h
      · next sec hread =>
        have hle := (ih (by decide) h).1
        have hpos : 0 < if size < u32 (buf.length+(512-skip)) then size-buf.length
            else 512-skip := by
          split_ifs <;> omega
        simp only [List.length_append, List.length_map, List.length_range] at hle
        exact ⟨by omega, fun _ _ => by omega⟩

/-- Every cluster adds at least a byte, the first one too: the offset lies in it. -/
theorem part_returns {c : ℕ} {b : List UInt8 × ℕ} (h : b.2 < v.bpb.spc*512) :
    (partLoop v size).Returns c b := by
  refine @Loop.returns_measure _ _ _ _ c b (fun _ b => b.2 < v.bpb.spc*512)
    (fun b => size-b.1.length) (fun c b b' hin hgo hb => ?_) h
  have hlt : b.1.length < size := by
    simp [partLoop] at hgo
    exact hgo.2
  have hspc := spc_lt v.bpb
  have hfirst : b.2/512%256 < v.bpb.spc := by omega
  dsimp only [partLoop] at hb
  split at hb
  · cases hb
  · next b'' hok =>
    obtain rfl := Sum.inr.inj hb
    have hgrow := (offsetSectors_grows (Nat.mod_lt _ (by decide)) hok).2 (by omega) hlt
    exact ⟨by omega, by dsimp only; omega⟩

theorem offset_returns (hspc : 1 ≤ v.bpb.spc) (name : List UInt8) (offset size : ℕ) :
    (Call.readFileOffset name offset size).Returns v := by
  by_cases hm : v.mounted = false
  · exact ⟨0, _, if_pos hm⟩
  obtain ⟨fuel, found, hfind⟩ := (find_returns_iff (v := v) 0 name).mpr (Or.inr (Or.inl rfl))
  have hroot : ∀ fuel', findDirEntry fuel' v 0 name = some found := fun fuel' => by
    rw [← hfind, findDirEntry, findDirEntry, if_neg hm, if_neg hm, if_pos rfl, if_pos rfl]
  cases found with
  | none => exact ⟨0, (-1, []), by rw [readFileOffset, if_neg hm, hroot]⟩
  | some p =>
    by_cases hpast : (v.loadEntry p).fileSize.toNat ≤ offset
    · refine ⟨0, (0, []), ?_⟩
      rw [readFileOffset, if_neg hm, hroot]
      exact if_pos hpast
    · cases hskip : skipClusters v (offset/(v.bpb.spc*512)) (v.loadEntry p).cluster with
      | none =>
        refine ⟨0, (-1, []), ?_⟩
        rw [readFileOffset, if_neg hm, hroot]
        dsimp only
        rw [if_neg hpast, hskip]
      | some c =>
        have hloop : (partLoop v (if (v.loadEntry p).fileSize.toNat < u32 (offset+size) then
            (v.loadEntry p).fileSize.toNat-offset else size)).Returns c
              ([], offset%(v.bpb.spc*512)) :=
          part_returns (Nat.mod_lt _ (by omega))
        obtain ⟨fuel', r, hr⟩ := hloop
        rw [← partLoop_run] at hr
        refine ⟨fuel', r, ?_⟩
        rw [readFileOffset, if_neg hm, hroot]
        dsimp only
        rw [if_neg hpast, hskip]
        exact hr

end Offsets

section Seeking

variable {v : Volume} {offset : ℕ}

/-- The seek loop of `fat16_read`. -/
def seeking (v : Volume) (offset : ℕ) : Loop ℕ ℕ (ℕ × ℕ) where
  next := v.fat
  go := fun c cur => inChain c ∧ u32 (cur+v.bpb.spc*512) ≤ offset
  body := fun _ cur => .inr (u32 (cur+v.bpb.spc*512))
  result := fun c cur => (c, cur)

theorem seeking_run (fuel c cur : ℕ) :
    seekLoop v offset fuel c cur = (seeking v offset).run fuel c cur := by
  induction fuel generalizing c cur with
  | zero => rfl
  | succ fuel ih =>
    rw [seekLoop, Loop.run]
    by_cases hgo : inChain c ∧ u32 (cur+v.bpb.spc*512) ≤ offset
    · rw [if_pos hgo, if_pos (show (seeking v offset).go c cur = true from decide_eq_true hgo)]
      exact ih (v.fat c) _
    · rw [if_neg hgo, if_neg (by simpa [seeking] using hgo)]
      rfl

/-- A multiple of the cluster size lies behind the offset after wrapping around. -/
def Passed (v : Volume) (offset cur : ℕ) : Prop :=
  ∃ k, offset < u32 (cur+(k+1)*(v.bpb.spc*512))

theorem wrap_next (cur n k : ℕ) : u32 (u32 (cur+n)+(k+1)*n) = u32 (cur+(k+1+1)*n) := by
  rw [u32, u32, u32, Nat.mod_add_mod, Nat.add_mul (k+1) 1, Nat.one_mul, Nat.add_assoc,
    Nat.add_comm n]

theorem passed_next {cur : ℕ} (h : u32 (cur+v.bpb.spc*512) ≤ offset) :
    Passed v offset cur ↔ Passed v offset (u32 (cur+v.bpb.spc*512)) := by
  constructor
  · rintro ⟨k, hk⟩
    cases k with
    | zero =>
      rw [Nat.zero_add, Nat.one_mul] at hk
      omega
    | succ k => exact ⟨k, by rwa [wrap_next]⟩
  · rintro ⟨k, hk⟩
    exact ⟨k+1, by rwa [← wrap_next]⟩

theorem seek_returns_iff {c cur : ℕ} :
    (seeking v offset).Returns c cur ↔ ChainEnds v c ∨ Passed v offset cur := by
  constructor
  · apply Loop.returns_rec
    · intro c cur hstop
      by_cases hc : inChain c = true
      · refine Or.inr ⟨0, ?_⟩
        rw [Nat.zero_add, Nat.one_mul]
        by_contra hle
        simp [seeking, hc, Nat.le_of_not_lt hle] at hstop
      · exact Or.inl ⟨0, by simpa using hc⟩
    · intro c cur r _ hb
      cases hb
    · intro c cur cur' hgo hb hrest
      simp [seeking] at hgo
      obtain rfl := Sum.inr.inj hb
      rcases hrest with hends | hpassed
      · exact Or.inl ((chainEnds_next hgo.1).mpr hends)
      · exact Or.inr ((passed_next hgo.2).mpr hpassed)
  · rintro (⟨n, hn⟩ | ⟨k, hk⟩)
    · exact @Loop.returns_chain _ _ _ _ c cur (fun c => inChain c = false)
        (fun c cur hc => by simp [seeking, hc]) n hn
    · induction k generalizing c cur with
      | zero =>
        rw [Nat.zero_add, Nat.one_mul] at hk
        exact Loop.returns_stop (by simp [seeking, hk])
      | succ k ih =>
        by_cases hgo : (seeking v offset).go c cur = true
        · apply (Loop.returns_next hgo rfl).mpr
          refine ih ?_
          rwa [wrap_next]
        · exact Loop.returns_stop (by simpa using hgo)

/-- From the start of a file the multiples reach every number of their common divisor with the
range of the counter. -/
theorem passed_start (hspc : 1 ≤ v.bpb.spc) :
    Passed v offset 0 ↔ offset < 4294967296-Nat.gcd (v.bpb.spc*512) 4294967296 := by
  have hlt := spc_lt v.bpb
  have hpos : 0 < Nat.gcd (v.bpb.spc*512) 4294967296 := Nat.gcd_pos_of_pos_right _ (by decide)
  have hsmall : Nat.gcd (v.bpb.spc*512) 4294967296 ≤ v.bpb.spc*512 :=
    Nat.gcd_le_left _ (by omega)
  obtain ⟨q, hq⟩ := Nat.gcd_dvd_right (v.bpb.spc*512) 4294967296
  constructor
  · rintro ⟨k, hk⟩
    have hdvd : Nat.gcd (v.bpb.spc*512) 4294967296 ∣ u32 (0+(k+1)*(v.bpb.spc*512)) := by
      rw [Nat.zero_add, u32]
      exact (Nat.dvd_mod_iff (Nat.gcd_dvd_right _ _)).mpr
        (Dvd.dvd.mul_left (Nat.gcd_dvd_left _ _) _)
    obtain ⟨t, ht⟩ := hdvd
    have hwrap : u32 (0+(k+1)*(v.bpb.spc*512)) < 4294967296 := Nat.mod_lt _ (by decide)
    have hstep : t+1 ≤ q := by
      by_contra hge
      have := Nat.mul_le_mul_left (Nat.gcd (v.bpb.spc*512) 4294967296) (show q ≤ t by omega)
      omega
    have := Nat.mul_le_mul_left (Nat.gcd (v.bpb.spc*512) 4294967296) hstep
    rw [Nat.mul_succ] at this
    omega
  · intro h
    obtain ⟨m, -, hm⟩ := Nat.exists_mul_mod_eq_gcd
      (show Nat.gcd (v.bpb.spc*512) 4294967296 < 4294967296 by omega)
    have hlast : u32 (m*(q-1)*(v.bpb.spc*512)) =
        4294967296-Nat.gcd (v.bpb.spc*512) 4294967296 := by
      have hprod : m*(q-1)*(v.bpb.spc*512) = v.bpb.spc*512*m*(q-1) := by ring
      have hlow : Nat.gcd (v.bpb.spc*512) 4294967296*(q-1) =
          4294967296-Nat.gcd (v.bpb.spc*512) 4294967296 := by
        rw [Nat.mul_sub_one, ← hq]
      rw [hprod, u32, Nat.mul_mod, hm, Nat.mul_mod_mod, hlow]
      exact Nat.mod_eq_of_lt (by omega)
    cases hk : m*(q-1) with
    | zero =>
      rw [hk, Nat.zero_mul] at hlast
      change 0 = _ at hlast
      omega
    | succ k =>
      rw [hk] at hlast
      exact ⟨k, by rw [Nat.zero_add, hlast]; exact h⟩

end Seeking

section Reading

variable {v : Volume} {offset want : ℕ}

/-- The read loop of `fat16_read`. -/
def reading (v : Volume) (offset want : ℕ) : Loop ℕ (List UInt8 × ℕ) (ℤ × List UInt8) where
  next := v.fat
  go := fun c b => b.1.length < want ∧ inChain c
  body := fun c b =>
    match readSectors v.disk (v.bpb.clusterToLba c) offset want v.bpb.spc 0 b.1 b.2 with
    | .error b => .inl (-1, b)
    | .ok b => .inr b
  result := fun _ b => (toInt32 b.1.length, b.1)

theorem reading_run (fuel c : ℕ) (b : List UInt8 × ℕ) :
    readLoop v offset want fuel c b.1 b.2 = (reading v offset want).run fuel c b := by
  induction fuel generalizing c b with
  | zero => rfl
  | succ fuel ih =>
    rw [readLoop, Loop.run]
    by_cases hgo : b.1.length < want ∧ inChain c
    · rw [if_pos hgo, if_pos (show (reading v offset want).go c b = true from
        decide_eq_true hgo)]
      dsimp only [reading]
      cases readSectors v.disk (v.bpb.clusterToLba c) offset want v.bpb.spc 0 b.1 b.2 with
      | error b' => rfl
      | ok b' => exact ih (v.fat c) b'
    · rw [if_neg hgo, if_neg (by simpa [reading] using hgo)]
      rfl

/-- The bytes that are missing, and the sectors up to the offset. -/
def remaining (want : ℕ) (b : List UInt8 × ℕ) : ℕ :=
  (want-b.1.length)*8388609+(4294967296-b.2)/512

/-- A sector is stepped over before the offset, or its bytes are copied. -/
theorem readSectors_remaining {d : Disk} {lba n s cur : ℕ} {buf : List UInt8}
    {b : List UInt8 × ℕ} (hoff : offset < 4294967296)
    (h : readSectors d lba offset want n s buf cur = .ok b) :
    remaining want b ≤ remaining want (buf, cur) ∧
      (0 < n → buf.length < want → remaining want b < remaining want (buf, cur)) := by
  induction n generalizing s buf cur with
  | zero =>
    obtain rfl := Except.ok.inj h
    exact ⟨le_refl _, fun hn => absurd hn (Nat.lt_irrefl 0)⟩
  | succ n ih =>
    rw [readSectors] at h
    by_cases hlt : buf.length < want
    · have hless : ∀ {buf' cur'}, remaining want (buf', cur') < remaining want (buf, cur) →
          readSectors d lba offset want n (s+1) buf' cur' = .ok b →
          remaining want b ≤ remaining want (buf, cur) ∧ (0 < n+1 → buf.length < want →
            remaining want b < remaining want (buf, cur)) := fun hdec hrest =>
        have hdec' := lt_of_le_of_lt (ih hrest).1 hdec
        ⟨hdec'.le, fun _ _ => hdec'⟩
      rw [if_pos hlt] at h
      split at h
      · cases h
      · next sec hread =>
        by_cases hskip : cur < offset ∧ 512 ≤ offset-cur
        · have hcur : u32 (cur+512) = cur+512 := u32_of_lt (by omega)
          rw [if_pos hskip, hcur] at h
          apply hless _ h
          unfold remaining
          dsimp only
          omega
        · have hstart : (if cur < offset then offset-cur else 0) < 512 := by
            split_ifs <;> omega
          rw [if_neg hskip] at h
          dsimp only at h
          generalize (if cur < offset then offset-cur else 0) = start at h hstart
          have hpos : 0 < if want < u32 (buf.length+(512-start)) then want-buf.length
              else 512-start := by
            split_ifs <;> omega
          generalize (if want < u32 (buf.length+(512-start)) then want-buf.length
            else 512-start) = count at h hpos
          apply hless _ h
          simp only [remaining, List.length_append, List.length_map, List.length_range]
          omega
    · rw [if_neg hlt] at h
      obtain rfl := Except.ok.inj h
      exact ⟨le_refl _, fun _ hlt' => absurd hlt' hlt⟩

theorem read_returns (hspc : 1 ≤ v.bpb.spc) (hoff : offset < 4294967296) (c : ℕ)
    (b : List UInt8 × ℕ) : (reading v offset want).Returns c b := by
  refine @Loop.returns_measure _ _ _ _ c b (fun _ _ => True) (remaining want)
    (fun c b b' _ hgo hb => ⟨trivial, ?_⟩) trivial
  have hlt : b.1.length < want := by
    simp [reading] at hgo
    exact hgo.1
  dsimp only [reading] at hb
  split at hb
  · cases hb
  · next b'' hok =>
    obtain rfl := Sum.inr.inj hb
    exact (readSectors_remaining hoff hok).2 (by omega) hlt

theorem entry_returns_iff (hspc : 1 ≤ v.bpb.spc) (e : DirEntry) (offset size : ℕ) :
    (∃ fuel r, readEntry fuel v e offset size = some r) ↔
      e.fileSize.toNat ≤ offset ∨ ChainEnds v e.cluster ∨
        offset < 4294967296-Nat.gcd (v.bpb.spc*512) 4294967296 := by
  by_cases hpast : e.fileSize.toNat ≤ offset
  · exact iff_of_true ⟨0, (0, []), if_pos hpast⟩ (Or.inl hpast)
  have hoff : offset < 4294967296 := lt_trans (Nat.lt_of_not_le hpast) e.fileSize.toNat_lt
  rw [or_iff_right hpast, ← passed_start hspc, ← seek_returns_iff]
  constructor
  · rintro ⟨fuel, r, hr⟩
    rw [readEntry, if_neg hpast] at hr
    dsimp only at hr
    split at hr
    · cases hr
    · next c cur hs =>
      rw [seeking_run] at hs
      exact ⟨fuel, _, hs⟩
  · rintro ⟨fuel, ⟨c, cur⟩, hs⟩
    have hloop : (reading v offset (if e.fileSize.toNat < u32 (offset+size) then
        e.fileSize.toNat-offset else size)).Returns c ([], cur) :=
      read_returns hspc hoff c ([], cur)
    obtain ⟨fuel', r, hr⟩ := hloop
    have hseek := Loop.run_mono hs (Nat.le_max_left fuel fuel')
    have hread := Loop.run_mono hr (Nat.le_max_right fuel fuel')
    rw [← seeking_run] at hseek
    rw [← reading_run] at hread
    by_cases hc : inChain c = true
    · refine ⟨max fuel fuel', r, ?_⟩
      rw [readEntry, if_neg hpast]
      dsimp only
      rw [hseek]
      dsimp only
      rw [if_pos hc]
      exact hread
    · refine ⟨max fuel fuel', (0, []), ?_⟩
      rw [readEntry, if_neg hpast]
      dsimp only
      rw [hseek]
      exact if_neg hc

theorem entry_mono {e : DirEntry} {size fuel fuel' : ℕ} {r : ℤ × List UInt8}
    (h : readEntry fuel v e offset size = some r) (hle : fuel ≤ fuel') :
    readEntry fuel' v e offset size = some r := by
  by_cases hpast : e.fileSize.toNat ≤ offset
  · rw [readEntry, if_pos hpast] at h ⊢
    exact h
  · rw [readEntry, if_neg hpast] at h ⊢
    dsimp only at h ⊢
    cases hs : seekLoop v offset fuel e.cluster 0 with
    | none =>
      rw [hs] at h
      cases h
    | some found =>
      obtain ⟨c, cur⟩ := found
      rw [hs] at h
      rw [seeking_run] at hs
      rw [seeking_run, Loop.run_mono hs hle]
      dsimp only at h ⊢
      by_cases hc : inChain c = true
      · rw [if_pos hc] at h ⊢
        have hr := (reading_run fuel c ([], cur)).symm.trans h
        exact (reading_run fuel' c ([], cur)).trans (Loop.run_mono hr hle)
      · rw [if_neg hc] at h ⊢
        exact h

theorem read_returns_iff (hspc : 1 ≤ v.bpb.spc) (vn : Vnode) (offset size : ℕ) :
    (Call.read vn offset size).Returns v ↔ (Call.read vn offset size).Bounded v := by
  change (∃ fuel r, fat16Read fuel v vn offset size = some r) ↔
    v.mounted = false ∨ vn.type ≠ .file ∨ _
  by_cases hm : v.mounted = false
  · exact iff_of_true ⟨0, _, if_pos hm⟩ (Or.inl hm)
  by_cases ht : vn.type ≠ .file
  · exact iff_of_true ⟨0, _, (if_neg hm).trans (if_pos ht)⟩ (Or.inr (Or.inl ht))
  rw [or_iff_right hm, or_iff_right ht]
  cases hdata : vn.nodeData with
  | none =>
    refine iff_of_true ⟨0, (-1, []), ?_⟩ (fun name parent h => by cases h)
    rw [fat16Read, if_neg hm, if_neg ht, hdata]
  | some data =>
    obtain ⟨name, parent⟩ := data
    constructor
    · rintro ⟨fuel, r, hr⟩ name' parent' hsame
      obtain ⟨rfl, rfl⟩ := Prod.mk.inj (Option.some.inj hsame)
      rw [fat16Read, if_neg hm, if_neg ht, hdata] at hr
      dsimp only at hr
      cases hf : findDirEntry fuel v parent name with
      | none =>
        rw [hf] at hr
        cases hr
      | some found =>
        refine ⟨(find_returns_iff parent name).mp ⟨fuel, found, hf⟩, fun p hp => ?_⟩
        rw [find_model hf] at hp
        obtain rfl := Option.some.inj hp
        rw [hf] at hr
        exact (entry_returns_iff hspc _ offset size).mp ⟨fuel, r, hr⟩
    · intro h
      obtain ⟨hfinds, hentry⟩ := h name parent rfl
      unfold fat16Read
      simp only [hdata, if_neg hm, if_neg ht]
      obtain ⟨fuel, found, hf⟩ := (find_returns_iff parent name).mpr hfinds
      cases found with
      | none => exact ⟨fuel, (-1, []), by rw [hf]⟩
      | some p =>
        obtain ⟨fuel', r, hr⟩ := (entry_returns_iff hspc (v.loadEntry p) offset size).mpr
          (hentry p (find_model hf))
        refine ⟨max fuel fuel', r, ?_⟩
        rw [find_mono hf (Nat.le_max_left fuel fuel')]
        exact entry_mono hr (Nat.le_max_right fuel fuel')

end Reading

section Calls

variable {v : Volume}

theorem list_call_returns_iff (dir maxEntries : ℕ) :
    (Call.readdir dir maxEntries).Returns v ↔ (Call.readdir dir maxEntries).Bounded v := by
  change (∃ fuel r, fat16Readdir fuel v dir maxEntries = some r) ↔
    v.mounted = false ∨ dir = 0 ∨ _
  by_cases hm : v.mounted = false
  · exact iff_of_true ⟨0, _, if_pos hm⟩ (Or.inl hm)
  by_cases hd : dir = 0
  · exact iff_of_true ⟨0, _, (if_neg hm).trans (if_pos hd)⟩ (Or.inr (Or.inl hd))
  have hloop : (∃ fuel r, fat16Readdir fuel v dir maxEntries = some r) ↔
      (listLoop v maxEntries).Returns (dir%65536) [] := by
    simp only [fat16Readdir, if_neg hm, if_neg hd, listLoop_run]
    apply exists_congr
    intro fuel
    cases (listLoop v maxEntries).run fuel (dir%65536) [] <;> simp
  rw [hloop, list_returns_iff, or_iff_right hm, or_iff_right hd]
  simp only [ListStops, List.length_nil, Nat.zero_add]

/-- A call returns exactly when its loops are bounded. -/
theorem call_returns_iff (hspc : 1 ≤ v.bpb.spc) (c : Call) (h : c.Buffered) :
    c.Returns v ↔ c.Bounded v := by
  cases c with
  | findDirEntry dir name => exact find_returns_iff dir name
  | findFreeDirEntry dir => exact free_returns_iff dir
  | readdir dir maxEntries => exact list_call_returns_iff dir maxEntries
  | readFile name maxSize => exact file_returns_iff hspc name maxSize h
  | readFileOffset name offset size =>
    exact iff_of_true (offset_returns hspc name offset size) trivial
  | read vn offset size => exact read_returns_iff hspc vn offset size
  | statFile name => exact stat_returns_iff name

theorem file_returns_blank : (Call.readFile [0x41] 512).Returns Fat16Runs.blank := by
  have hnone : foundEntry Fat16Runs.blank [0x41] = none := by decide +kernel
  apply (call_returns_iff (by decide) (.readFile [0x41] 512)
    (show 512+512 ≤ 4294967296 by decide)).mpr
  refine Or.inr fun e he => ?_
  rw [hnone] at he
  cases he

end Calls

section Cycle

/-- A directory of one cluster that follows itself, full of entries in use. -/
def cyclicDisk : Disk :=
  ⟨4, fun l => if l = 0 then bootSector 1
    else if l ≤ 2 then fun k => if k = 4 then 2 else 0 else fun _ => 0x41⟩

def cyclic : Volume := (init true true ⟨bpbOf zeroSector, false, fun _ => 0, cyclicDisk⟩).2

theorem cyclicDisk_formatted : Formatted cyclicDisk := by
  refine ⟨by decide, by decide, by decide, by decide, ?_⟩
  intro f hf s hs k _
  change f < 2 at hf
  change s < 1 at hs
  obtain rfl : s = 0 := by omega
  change cyclicDisk.data (1+f*1+0) k = cyclicDisk.data 1 k
  rw [cyclicDisk]
  dsimp only
  rw [if_neg (by omega), if_pos (by omega)]
  rfl

/-- The search for a name in that directory does not return. -/
theorem cyclic_search_forever :
    (init true true ⟨bpbOf zeroSector, false, fun _ => 0, cyclicDisk⟩).1 = true ∧
      ∀ fuel, ChainCalls.findDirEntry fuel cyclic 2 [0x42] = none := by
  obtain ⟨table, heq, htable⟩ := init_spec
    (v := ⟨bpbOf zeroSector, false, fun _ => 0, cyclicDisk⟩) cyclicDisk_formatted
  refine ⟨by rw [heq], fun fuel => ?_⟩
  have hcyclic : cyclic = ⟨bpbOf (cyclicDisk.data 0), true, table, cyclicDisk⟩ :=
    congrArg Prod.snd heq
  have hloop : cyclic.fat 2 = 2 := by
    rw [hcyclic]
    exact congrArg UInt16.toNat (htable 0 (by decide) (by decide) 2 (by decide))
  have hround : ∀ n, cyclic.fat^[n] (2%65536) = 2 := fun n => Function.iterate_fixed hloop n
  by_contra hsome
  obtain ⟨r, hr⟩ := Option.ne_none_iff_exists'.mp hsome
  rcases (find_returns_iff 2 [0x42]).mp ⟨fuel, r, hr⟩ with hm | hd | ⟨n, hn⟩ | ⟨n, p, hp, hstop⟩
  · rw [hcyclic] at hm
    cases hm
  · cases hd
  · rw [hround] at hn
    cases hn
  · rw [hround, hcyclic] at hp
    have hlba : p.1 = 3 := by
      have hmem := (List.mem_filter.mp (Fat16Directory.mem_slotsOf.mp hp).1).1
      rw [show (bpbOf (cyclicDisk.data 0)).clusterLbas 2 = [3] by decide] at hmem
      exact List.mem_singleton.mp hmem
    have hentry : cyclic.entryAt p = getEntry (fun _ => 0x41) p.2 := by
      rw [hcyclic, Volume.entryAt, hlba]
      rfl
    rw [DirectoryScans.Matches, hentry] at hstop
    rcases hstop with hend | ⟨-, hshown, -⟩
    · exact absurd (show (0x41 : UInt8) = 0 from hend) (by decide)
    · exact absurd (show (0x41 : UInt8) &&& attrHiddenMask = 0 from hshown) (by decide)

end Cycle

end Vlsmc.ChainTermination
