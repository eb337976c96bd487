import Vlsmc.Fat16Reading
import Vlsmc.Fat16Runs

/-!
# Writing and reading back

A file that was written reads back, and every other file reads as before,
unless it lay below a directory that was overwritten.
-/

set_option autoImplicit false

namespace Vlsmc.Fat16RoundTrip
open Vlsmc.Fat16Layout Vlsmc.Fat16Names Vlsmc.Fat16Volume Vlsmc.Fat16Files
open Vlsmc.Fat16Geometry Vlsmc.Fat16Chains Vlsmc.Fat16Directory Vlsmc.Fat16Soundness
open Vlsmc.Fat16Growth Vlsmc.Fat16Effects Vlsmc.Fat16Operations Vlsmc.Fat16Reading
open Vlsmc.Words

section Unchanged

theorem readSectors_congr {d d' : Disk} {lba offset want : ℕ} (n s : ℕ) (buf : List UInt8)
    (cur : ℕ) (h : ∀ j < n, d'.read (u32 (lba+(s+j))) = d.read (u32 (lba+(s+j)))) :
    readSectors d' lba offset want n s buf cur = readSectors d lba offset want n s buf cur := by
  induction n generalizing s buf cur with
  | zero => rfl
  | succ n ih =>
    have hnext : ∀ j < n, d'.read (u32 (lba+(s+1+j))) = d.read (u32 (lba+(s+1+j))) := by
      intro j hj
      rw [show s+1+j = s+(j+1) by omega]
      exact h (j+1) (by omega)
    have hfirst := h 0 (by omega)
    rw [Nat.add_zero] at hfirst
    unfold readSectors
    rw [hfirst]
    cases d.read (u32 (lba+s)) with
    | none => rfl
    | some sec => simp only [ih (s+1) _ _ hnext]

variable {v w : Volume} (hb : w.bpb = v.bpb)

/-- Both volumes deliver the same sectors of the listed clusters. -/
def SameReads (v w : Volume) (l : List ℕ) : Prop :=
  ∀ c ∈ l, ∀ lba ∈ v.bpb.clusterLbas c, w.disk.read lba = v.disk.read lba

include hb

theorem readLoop_congr {offset want : ℕ} (fuel : ℕ) {c c' : ℕ} {l : List ℕ}
    (hl : FatChain v c l) (hl' : FatChain w c' l) (h : SameReads v w l) (buf : List UInt8)
    (cur : ℕ) : readLoop w offset want fuel c' buf cur = readLoop v offset want fuel c buf cur := by
  induction fuel generalizing c c' l buf cur with
  | zero => rfl
  | succ fuel ih =>
    unfold readLoop
    cases l with
    | nil => simp [isLast_inChain c hl, isLast_inChain c' hl']
    | cons x t =>
      obtain ⟨rfl, hx, ht⟩ := hl
      obtain ⟨rfl, -, ht'⟩ := hl'
      have hsec : ∀ j < v.bpb.spc, w.disk.read (u32 (v.bpb.clusterToLba c'+(0+j))) =
          v.disk.read (u32 (v.bpb.clusterToLba c'+(0+j))) := by
        intro j hj
        refine h c' (by simp) _ (List.mem_map.mpr ⟨j, List.mem_range.mpr hj, ?_⟩)
        rw [Nat.zero_add]
      rw [hb, readSectors_congr _ _ _ _ hsec]
      simp only [ih ht ht' fun y hy => h y (by simp [hy])]

/-- The seek loops stop together, at the same place of the chain. -/
theorem seekLoop_congr (offset fuel : ℕ) {c c' : ℕ} {l : List ℕ} (hl : FatChain v c l)
    (hl' : FatChain w c' l) (cur : ℕ) :
    (seekLoop w offset fuel c' cur = none ∧ seekLoop v offset fuel c cur = none) ∨
    ∃ a a' cur' m, seekLoop v offset fuel c cur = some (a, cur') ∧
      seekLoop w offset fuel c' cur = some (a', cur') ∧ FatChain v a m ∧ FatChain w a' m ∧
      m ⊆ l := by
  induction fuel generalizing c c' l cur with
  | zero => exact Or.inl ⟨rfl, rfl⟩
  | succ fuel ih =>
    unfold seekLoop
    cases l with
    | nil =>
      refine Or.inr ⟨c, c', cur, [], ?_, ?_, hl, hl', fun _ h => h⟩
      · simp [isLast_inChain c hl]
      · simp [isLast_inChain c' hl']
    | cons x t =>
      obtain ⟨rfl, hx, ht⟩ := hl
      obtain ⟨rfl, hx', ht'⟩ := hl'
      rw [hb]
      split_ifs with hgo
      · rcases ih ht ht' (u32 (cur+v.bpb.spc*512)) with hnone | ⟨a, a', cur', m, h1, h2, h3, h4, h5⟩
        · exact Or.inl hnone
        · exact Or.inr ⟨a, a', cur', m, h1, h2, h3, h4, fun y hy => List.mem_cons_of_mem _ (h5 hy)⟩
      · exact Or.inr ⟨_, _, cur, c'::t, rfl, rfl, ⟨rfl, hx, ht⟩, ⟨rfl, hx', ht'⟩, fun _ h => h⟩

omit hb in
theorem chain_inChain {a a' : ℕ} {m : List ℕ} (h : FatChain v a m) (h' : FatChain w a' m) :
    inChain a' = inChain a := by
  cases m with
  | nil => rw [isLast_inChain a h, isLast_inChain a' h']
  | cons x m => rw [h.1, h'.1]

theorem readEntry_congr {e : DirEntry} {l : List ℕ} (hl : FatChain v e.cluster l)
    (hl' : FatChain w e.cluster l) (h : SameReads v w l) (offset n : ℕ) :
    readEntry w e offset n = readEntry v e offset n := by
  unfold readEntry
  rcases seekLoop_congr hb offset readFuel hl hl' 0 with
    ⟨hw, hv⟩ | ⟨a, a', cur, m, hv, hw, hm, hm', hsub⟩
  · rw [hw, hv]
  · rw [hw, hv]
    simp only [chain_inChain hm hm', readLoop_congr hb readFuel hm hm' fun y hy => h y (hsub hy)]

omit hb in
/-- An entry without clusters reads as empty. -/
theorem readEntry_low {e : DirEntry} (h : e.cluster < 2) (offset n : ℕ) :
    readEntry v e offset n = some (0, []) := by
  have hin : inChain e.cluster = false := by
    simp [inChain]
    omega
  have hseek : seekLoop v offset readFuel e.cluster 0 = some (e.cluster, 0) := by
    rw [readFuel, seekLoop, hin]
    simp
  unfold readEntry
  simp [hseek, hin]

theorem readEntry_data {e : DirEntry} (hw : Working v) (hww : Working w)
    (hchain : 2 ≤ e.cluster → ∃ t, FatChain v e.cluster (e.cluster::t))
    (hk : ∀ l, FatChain v e.cluster l → FatChain w e.cluster l ∧ SameData v w l)
    (offset n : ℕ) : readEntry w e offset n = readEntry v e offset n := by
  by_cases h2 : 2 ≤ e.cluster
  · obtain ⟨t, ht⟩ := hchain h2
    obtain ⟨htw, hdata⟩ := hk _ ht
    refine readEntry_congr hb ht htw (fun c hc lba hlba => ?_) offset n
    have hr := fatChain_range ht c hc
    have hlt := cluster_lt_dataEnd v.bpb hr.1 hr.2 hlba
    have hmem : lba ∈ chainLbas v.bpb (e.cluster::t) := List.mem_flatMap.mpr ⟨c, hc, hlba⟩
    have h1 := lt_of_lt_of_le hlt hw.accepts
    have h3 := lt_of_lt_of_le hlt (hb ▸ hww.accepts)
    rw [Disk.read, Disk.read, if_pos h1, if_pos h3, hdata lba hmem]
  · rw [readEntry_low (by omega), readEntry_low (by omega)]

theorem readEntry_kept {d : ℕ} {p : Slot} (hw : Working v) (hww : Working w) (hs : Sound v)
    (hd : Reachable v d) (hp : VisibleAt v d p) (hk : Kept v w p)
    (hfile : ¬ (v.entryAt p).isDirectory) (offset n : ℕ) :
    readEntry w (w.entryAt p) offset n = readEntry v (v.entryAt p) offset n := by
  rw [hk.entry]
  exact readEntry_data hb hw hww (hs.chains d p hd hp) (hk.chain hfile) offset n

end Unchanged

section RoundTrip

theorem cleanFat_length (e : DirEntry) : (cleanFat e).length ≤ 12 := by
  have h8 := (List.takeWhile_prefix (l := List.ofFn e.name) (· ≠ space)).length_le
  have h3 := (List.takeWhile_prefix (l := List.ofFn e.ext) (· ≠ space)).length_le
  rw [List.length_ofFn] at h8 h3
  rw [cleanFat, List.length_append]
  split_ifs
  · rw [List.length_cons]
    omega
  · simp only [List.length_nil]
    omega

/-- The name buffer of a vnode holds every name that a lookup finds. -/
theorem take_found_name {e : DirEntry} {name : List UInt8} (h : entryName e = name.map upper) :
    name.take 12 = name := by
  have hc := cleanFat_length e
  have hp := (List.takeWhile_prefix (l := cleanFat e) (· ≠ 0)).length_le
  have hl := congrArg List.length h
  rw [entryName, List.length_map, List.length_map] at hl
  apply List.take_of_length_le
  rw [← hl]
  exact le_trans hp hc

variable {v : Volume} {d : ℕ} {name : List UInt8}

/-- Lookup and read of a visible entry under its name. -/
theorem lookup_read (hw : Working v) (hs : Sound v) (hd : Reachable v d) {p : Slot}
    (hp : VisibleAt v d p) (hname : entryName (v.entryAt p) = name.map upper) (hn : NotDots name) :
    v.findDirEntry d name = some (some p) ∧
    fat16Lookup true v d name = some (some {
      type := entryType (v.entryAt p)
      size := (v.entryAt p).fileSize.toNat
      inodeNum := (v.entryAt p).cluster
      nodeData := some (name, d) }) := by
  rcases lookup_cases hw hs hd hn with ⟨-, habs⟩ | ⟨q, hq, hqv, hqn, hload⟩
  · exact absurd hname (habs p hp)
  · obtain rfl := hs.names d q p hd hqv hp (hqn.trans hname.symm)
    refine ⟨hq, ?_⟩
    simp only [fat16Lookup, hq, hload, Option.bind_eq_bind, Option.bind_some, if_true,
      take_found_name hname]
    rfl

theorem fat16Read_file (hw : Working v) {vn : Vnode} {p : Slot} (hd : InDir v d p)
    (ht : vn.type = .file) (hnode : vn.nodeData = some (name, d))
    (hfind : v.findDirEntry d name = some (some p)) (offset n : ℕ) :
    fat16Read v vn offset n = readEntry v (v.entryAt p) offset n := by
  have hmount : ¬ v.mounted = false := by simp [hw.mounted]
  rw [fat16Read, if_neg hmount, if_neg (by simp [ht]), hnode]
  simp only [hfind, loadEntry_eq hw hd]

theorem fat16Read_directory (hw : Working v) {vn : Vnode} (ht : vn.type ≠ .file)
    (offset n : ℕ) : fat16Read v vn offset n = some (-1, []) := by
  have hmount : ¬ v.mounted = false := by simp [hw.mounted]
  rw [fat16Read, if_neg hmount, if_pos ht]

/-- A successful lookup names a visible entry. -/
theorem fat16Lookup_found (hw : Working v) (hs : Sound v) (hd : Reachable v d)
    (hn : NotDots name) {vn : Vnode} (h : fat16Lookup true v d name = some (some vn)) :
    ∃ p, VisibleAt v d p ∧ entryName (v.entryAt p) = name.map upper ∧
      vn.type = entryType (v.entryAt p) ∧ vn.inodeNum = (v.entryAt p).cluster ∧
      vn.nodeData = some (name, d) := by
  rcases lookup_cases hw hs hd hn with ⟨hr, -⟩ | ⟨p, -, hp, hname, -⟩
  · simp [fat16Lookup, hr] at h
  · rw [(lookup_read hw hs hd hp hname hn).2] at h
    obtain rfl := Option.some.inj (Option.some.inj h)
    exact ⟨p, hp, hname, rfl, rfl, rfl⟩

/-- Entries that an operation spares are read as before. -/
theorem fat16Read_spared {w : Volume} {gone : Option Slot} (hw : Working v) (hs : Sound v)
    (hww : Working w) (hsw : Sound w) (hb : w.bpb = v.bpb) (hsp : Spares v w gone)
    (hd : Reachable v d) (hclear : Clear v gone d) (hn : NotDots name) {vn : Vnode}
    (h : fat16Lookup true v d name = some (some vn))
    (hkeep : ∀ p ∈ gone, VisibleAt v d p → entryName (v.entryAt p) ≠ name.map upper)
    (offset n : ℕ) : fat16Read w vn offset n = fat16Read v vn offset n := by
  obtain ⟨p, hp, hname, htype, -, hnode⟩ := fat16Lookup_found hw hs hd hn h
  obtain ⟨hdw, hrest⟩ := hsp d hd hclear
  obtain ⟨hpw, hkept⟩ := hrest p hp fun hg => hkeep p hg hp hname
  by_cases hfile : vn.type = .file
  · have hnd : ¬ (v.entryAt p).isDirectory := by
      intro hdir
      rw [htype, entryType, if_pos hdir] at hfile
      simp at hfile
    have hnamew : entryName (w.entryAt p) = name.map upper := by rw [hkept.entry, hname]
    rw [fat16Read_file hw hp.1 hfile hnode (lookup_read hw hs hd hp hname hn).1,
      fat16Read_file hww hpw.1 hfile hnode (lookup_read hww hsw hdw hpw hnamew hn).1]
    exact readEntry_kept hb hw hww hs hd hp hkept hnd offset n
  · rw [fat16Read_directory hw hfile, fat16Read_directory hww hfile]

/-- A written file is found again and reads back; every other file that is not
below an overwritten directory reads as before. -/
theorem write_then_read (v : Volume) (hw : Working v) (hv : WellFormed v) (dir : ℕ)
    (name data : List UInt8) (now : Stamp) (hd : Reachable v dir) (hn : ValidName name)
    (w : Volume) (hwrite : writeFileInDir v dir name data now = some (true, w)) :
    (∃ vn, fat16Lookup true w dir name = some (some vn) ∧
      ∀ offset n, offset+n < 4294967296 → fat16Read w vn offset n =
        some (toInt32 ((data.drop offset).take n).length, (data.drop offset).take n)) ∧
    ∀ dir' name' vn, Reachable v dir' → fat16Lookup true v dir' name' = some (some vn) →
      NotDots name' → (dir' = dir → name'.map upper ≠ name.map upper) →
      (∀ old, fat16Lookup true v dir name = some (some old) → old.type = .directory →
        2 ≤ old.inodeNum → ¬ Below v old.inodeNum dir') →
      ∀ offset n, fat16Read w vn offset n = fat16Read v vn offset n := by
  have hnd := validName_notDots hn
  obtain ⟨ok, w', hr, hww, hwf, hb, ⟨gone, hsp, hgone, -⟩, hok⟩ :=
    writeFileInDir_spec hw hv hd (validName_fits hn v dir) data now
  obtain ⟨rfl, rfl⟩ : true = ok ∧ w = w' := by
    rw [hwrite] at hr
    simpa using hr
  constructor
  · obtain ⟨q, e, first, hq, hent, hcont⟩ := hok rfl
    have hname : entryName (w.entryAt q) = name.map upper := by
      rw [hent, freshEntry_name, entryName_format83 name hn]
    have hfile : entryType (w.entryAt q) = .file := by
      rw [hent, entryType, if_neg]
      exact (by decide : ¬ (attrArchive &&& attrDirectory ≠ 0))
    have hdw : Reachable w dir := by
      refine (hsp dir hd fun p hp => ?_).1
      exact own_clear hv.sound hd (hgone p hp).1 p rfl
    obtain ⟨hfind, hlook⟩ := lookup_read hww hwf.sound hdw hq hname hnd
    refine ⟨_, hlook, fun offset n hlt => ?_⟩
    rw [fat16Read_file hww hq.1 hfile rfl hfind]
    exact readEntry_spec hww hcont offset n hlt
  · intro dir' name' vn hd' hlook hnd' hother hbelow offset n
    refine fat16Read_spared hw hv.sound hww hwf.sound hb hsp hd' ?_ hnd' hlook ?_ offset n
    · intro p hp hdir h2
      obtain ⟨hpv, hpn⟩ := hgone p hp
      refine hbelow _ (lookup_read hw hv.sound hd hpv hpn hnd).2 ?_ h2
      exact if_pos hdir
    · intro p hp hpv hpn
      obtain ⟨hpd, hpn'⟩ := hgone p hp
      obtain rfl := inDir_unique hv.sound hd' hd hpv.1 hpd.1
      exact hother rfl (hpn.symm.trans hpn')

theorem write_then_read_blank : ∃ w, writeFileInDir Fat16Runs.blank 0 [0x41] [1, 2, 3] ⟨0, 0⟩ =
    some (true, w) ∧ ∃ vn, fat16Lookup true w 0 [0x41] = some (some vn) ∧
      fat16Read w vn 1 5 = some (2, [2, 3]) := by
  have hok : (writeFileInDir Fat16Runs.blank 0 [0x41] [1, 2, 3] ⟨0, 0⟩).map Prod.fst =
      some true := by decide +kernel
  obtain ⟨⟨ok, w⟩, hw, rfl⟩ := Option.map_eq_some_iff.mp hok
  obtain ⟨⟨vn, hlook, hread⟩, -⟩ := write_then_read Fat16Runs.blank Fat16Runs.blank_working
    Fat16Runs.blank_wellFormed 0 [0x41] [1, 2, 3] ⟨0, 0⟩ .refl Fat16Runs.validName_A w hw
  exact ⟨w, hw, vn, hlook, hread 1 5 (by decide)⟩

end RoundTrip

end Vlsmc.Fat16RoundTrip
