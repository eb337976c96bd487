import Vlsmc.FirstFit
import Vlsmc.Fat16Runs

/-!
# What a call takes and writes

`alloc_cluster` returns clusters, and `Disk::write_sectors` is given sectors, also such that the
disk does not have. Both are recorded in the order in which they come; the disk after a call is the
disk before it with the recorded writes.
-/

set_option autoImplicit false

namespace Vlsmc.VolumeWrites
open Vlsmc.Fat16Layout Vlsmc.Fat16Volume Vlsmc.Fat16Files Vlsmc.Fat16Chains
open Vlsmc.DirectoryEdits Vlsmc.FirstFit Vlsmc.SuccessorChain Vlsmc.Words
open Vlsmc.Fat16Names Vlsmc.Fat16Updates Vlsmc.Fat16Runs

section Events

/-- `alloc_cluster` returns a cluster, or a sector is written. -/
inductive Event
  | took (cluster : ℕ)
  | wrote (lba : ℕ) (s : Sector)

def Event.apply (d : Disk) : Event → Disk
  | .took _ => d
  | .wrote lba s => d.write lba s

def replay (d : Disk) (es : List Event) : Disk := es.foldl Event.apply d

def written (ws : List (ℕ × Sector)) : List Event := ws.map fun w => .wrote w.1 w.2

theorem replay_append (d : Disk) (es fs : List Event) :
    replay d (es++fs) = replay (replay d es) fs := List.foldl_append

theorem writeAll_append (d : Disk) (ws us : List (ℕ × Sector)) :
    d.writeAll (ws++us) = (d.writeAll ws).writeAll us := by
  induction ws generalizing d with
  | nil => rfl
  | cons w ws ih => exact ih _

theorem replay_written (d : Disk) (ws : List (ℕ × Sector)) :
    replay d (written ws) = d.writeAll ws := by
  induction ws generalizing d with
  | nil => rfl
  | cons w ws ih => exact ih _

end Events

section Definitions

variable (v : Volume)

/-- The write that ends an update of an entry. -/
def updated (p : Slot) (f : DirEntry → DirEntry) : Event :=
  .wrote p.1 (setEntry (v.disk.load p.1) p.2 (f (getEntry (v.disk.load p.1) p.2)))

def extendEvents (prev : ℕ) : List Event :=
  match v.allocCluster with
  | (0, _) => []
  | (c, v1) => .took c::written ((v1.setFat prev c).flushWrites++Volume.clearWrites v.bpb c)

def findFreeEvents (dir : ℕ) : List Event :=
  if v.mounted = false then []
  else if dir = 0 then []
  else
    match walk v.fat inChain (fun c => (v.bpb.clusterLbas c).findSome? v.freeInSector)
        chainFuel (dir%65536) (dir%65536) with
    | some (.inr prev) => extendEvents v prev
    | _ => []

/-- The writes of the sector loop of `write_file_in_dir`. -/
def fillWrites (data : List UInt8) (lba : ℕ) : ℕ → ℕ → ℕ → List (ℕ × Sector)
  | 0, _, _ => []
  | n+1, s, pos =>
    if pos < data.length then
      let count := if data.length < u32 (pos+512) then data.length-pos else 512
      (u32 (lba+s), block data pos count)::fillWrites data lba n (s+1) (u32 (pos+count))
    else []

def storeEvents (data : List UInt8) : ℕ → Volume → ℕ → ℕ → ℕ → List Event
  | 0, _, _, _, _ => []
  | fuel+1, v, first, prev, pos =>
    if pos < data.length then
      match v.allocCluster with
      | (0, v1) =>
        match if first = 0 then some v1 else v1.freeChain first with
        | none => []
        | some v2 => written v2.flushWrites
      | (c, v1) =>
        let v2 := if prev = 0 then v1 else v1.setFat prev c
        let r := fillSectors data (v.bpb.clusterToLba c) v.bpb.spc 0 v2.disk pos
        .took c::(written (fillWrites data (v.bpb.clusterToLba c) v.bpb.spc 0 pos)++
          storeEvents data fuel { v2 with disk := r.1 } (if first = 0 then c else first) c r.2)
    else []

def dropEvents (dir : ℕ) (name : List UInt8) : List Event :=
  match v.findDirEntry dir name with
  | some (some p) =>
    if (v.loadEntry p).attributes &&& attrProtectModify ≠ 0 then []
    else [updated v p DirEntry.markDeleted]
  | _ => []

def linkEvents (dir : ℕ) (name : List UInt8) (first size : ℕ) (now : Stamp) : List Event :=
  findFreeEvents v dir++
    match v.findFreeDirEntry dir with
    | some (some p, v1) => [updated v1 p (freshEntry attrArchive name first size now)]
    | _ => []

def writeEvents (dir : ℕ) (name data : List UInt8) (now : Stamp) : List Event :=
  if v.mounted = false then []
  else dropEvents v dir name++
    match dropOld v dir name with
    | some (some v1) => storeEvents data storeFuel v1 0 0 0++
      match storeLoop data storeFuel v1 0 0 0 with
      | some (some first, v2) =>
        written v2.flushWrites++linkEvents v2.flushFat dir name first data.length now
      | _ => []
    | _ => []

def mkdirEvents (dir : ℕ) (name : List UInt8) (now : Stamp) : List Event :=
  if v.mounted = false then []
  else
    match v.findDirEntry dir name with
    | some none => findFreeEvents v dir++
      match v.findFreeDirEntry dir with
      | some (some p, v1) =>
        match v1.allocCluster with
        | (0, _) => []
        | (c, v2) =>
          let entry := freshEntry attrDirectory name c 0 now
          .took c::updated v2 p entry::
            written ((v2.updateEntry p entry).flushWrites++newDirWrites v.bpb c dir)
      | _ => []
    | _ => []

/-- Of a renaming, what its search for a slot takes and writes. -/
def renameEvents (oldDir : ℕ) (oldName : List UInt8) (newDir : ℕ) (newName : List UInt8) :
    List Event :=
  if v.mounted = false then []
  else
    match v.findDirEntry oldDir oldName, v.findDirEntry newDir newName with
    | some (some _), some none => findFreeEvents v newDir
    | _, _ => []

/-- What the three functions take and write in a call. -/
def events : Call → List Event
  | .writeFileInDir dir name data now => writeEvents v dir name data now
  | .fat16Unlink _ _ => []
  | .fat16Mkdir dir name now => mkdirEvents v dir name now
  | .fat16Rename oldDir oldName newDir newName => renameEvents v oldDir oldName newDir newName

end Definitions

section Yields

variable {u v w : Volume}

/-- `w` is `v` with the recorded writes and another table. -/
structure Yields (v w : Volume) (es : List Event) : Prop where
  bpb : w.bpb = v.bpb
  mounted : w.mounted = v.mounted
  disk : w.disk = replay v.disk es

theorem yields_trans {es fs : List Event} (h : Yields v u es) (h' : Yields u w fs) :
    Yields v w (es++fs) where
  bpb := h'.bpb.trans h.bpb
  mounted := h'.mounted.trans h.mounted
  disk := by rw [replay_append, ← h.disk, h'.disk]

theorem yields_self (v : Volume) : Yields v v [] := ⟨rfl, rfl, rfl⟩

theorem yields_flush (v : Volume) : Yields v v.flushFat (written v.flushWrites) :=
  ⟨rfl, rfl, (replay_written _ _).symm⟩

theorem yields_update (v : Volume) (p : Slot) (f : DirEntry → DirEntry) :
    Yields v (v.updateEntry p f) [updated v p f] := ⟨rfl, rfl, rfl⟩

theorem extend_yields (v : Volume) (prev : ℕ) :
    Yields v (v.extendDir prev).2 (extendEvents v prev) := by
  rw [Volume.extendDir, extendEvents]
  rcases alloc_cases v with ⟨-, ha⟩ | ⟨k, -, -, ha⟩
  · rw [ha]
    exact yields_self v
  · rw [ha]
    refine ⟨rfl, rfl, ?_⟩
    change Disk.writeAll _ _ = replay v.disk (written _)
    rw [replay_written, writeAll_append]
    rfl

/-- The search for a slot changes nothing unless it extends the directory. -/
theorem findFree_yields {dir : ℕ} {r : Option Slot} (h : v.findFreeDirEntry dir = some (r, w)) :
    Yields v w (findFreeEvents v dir) := by
  rw [Volume.findFreeDirEntry] at h
  rw [findFreeEvents]
  split_ifs at h ⊢
  · obtain rfl := (Prod.mk.inj (Option.some.inj h)).2
    exact yields_self v
  · obtain rfl := (Prod.mk.inj (Option.some.inj h)).2
    exact yields_self v
  · split at h
    · cases h
    · next p hp =>
      obtain rfl := (Prod.mk.inj (Option.some.inj h)).2
      rw [hp]
      exact yields_self v
    · next prev hp =>
      have hw : (v.extendDir prev).2 = w := congrArg Prod.snd (Option.some.inj h)
      rw [hp, ← hw]
      exact extend_yields v prev

theorem fillSectors_writes (data : List UInt8) (lba n s pos : ℕ) (d : Disk) :
    (fillSectors data lba n s d pos).1 = d.writeAll (fillWrites data lba n s pos) := by
  induction n generalizing s pos d with
  | zero => rfl
  | succ n ih =>
    rw [fillSectors, fillWrites]
    split_ifs
    · exact ih _ _ _
    · exact ih _ _ _
    · rfl

theorem yields_freeChain {c : ℕ} (h : v.freeChain c = some w) : Yields v w [] := by
  obtain ⟨hb, hd, hm, -⟩ := freeLoop_frees h
  exact ⟨hb, hm, hd⟩

theorem store_yields {data : List UInt8} {fuel first prev pos : ℕ} {r : Option ℕ}
    (h : storeLoop data fuel v first prev pos = some (r, w)) :
    Yields v w (storeEvents data fuel v first prev pos) := by
  induction fuel generalizing v first prev pos with
  | zero => cases h
  | succ fuel ih =>
    rw [storeLoop] at h
    rw [storeEvents]
    by_cases hlt : pos < data.length
    · rw [if_pos hlt] at h ⊢
      rcases alloc_cases v with ⟨-, ha⟩ | ⟨k, -, -, ha⟩
      · rw [ha] at h ⊢
        by_cases hfirst : first = 0
        · simp only [hfirst, if_true, Option.pure_def, Option.bind_eq_bind, Option.bind_some,
            Option.some.injEq, Prod.mk.injEq] at h ⊢
          rw [← h.2]
          exact yields_flush v
        · cases hc : v.freeChain first with
          | none => simp [hfirst, hc] at h
          | some u =>
            simp only [hfirst, hc, if_false, Option.pure_def, Option.bind_eq_bind,
              Option.bind_some, Option.some.injEq, Prod.mk.injEq] at h ⊢
            rw [← h.2]
            exact yields_trans (yields_freeChain hc) (yields_flush u)
      · rw [ha] at h ⊢
        dsimp only at h ⊢
        have hfill : ∀ u : Volume, u.bpb = v.bpb ∧ u.mounted = v.mounted ∧ u.disk = v.disk →
            Yields v { u with disk := (fillSectors data (v.bpb.clusterToLba (k+1)) v.bpb.spc 0
              u.disk pos).1 } (.took (k+1)::written (fillWrites data
                (v.bpb.clusterToLba (k+1)) v.bpb.spc 0 pos)) := by
          rintro u ⟨hb, hm, hd⟩
          refine ⟨hb, hm, ?_⟩
          change (fillSectors _ _ _ _ _ _).1 = replay v.disk (written _)
          rw [fillSectors_writes, hd, replay_written]
        apply yields_trans (hfill _ _) (ih h)
        split_ifs <;> exact ⟨rfl, rfl, rfl⟩
    · rw [if_neg hlt] at h ⊢
      obtain rfl := (Prod.mk.inj (Option.some.inj h)).2
      exact yields_self v

theorem drop_yields {dir : ℕ} {name : List UInt8} {r : Option Volume}
    (h : dropOld v dir name = some r) : Yields v (r.getD v) (dropEvents v dir name) := by
  rw [dropEvents]
  cases hf : v.findDirEntry dir name with
  | none => simp [dropOld, hf] at h
  | some o =>
    cases o with
    | none =>
      rw [dropOld_absent hf] at h
      obtain rfl := Option.some.inj h
      exact yields_self v
    | some p =>
      dsimp only
      by_cases hprot : (v.loadEntry p).attributes &&& attrProtectModify = 0
      · obtain ⟨u, hu, hd⟩ := dropOld_drops hf hprot
        rw [hu] at h
        obtain rfl := Option.some.inj h
        rw [if_neg (not_not.mpr hprot)]
        exact ⟨hd.bpb, hd.mounted, hd.disk⟩
      · rw [dropOld_protected hf hprot] at h
        obtain rfl := Option.some.inj h
        rw [if_pos hprot]
        exact yields_self v

theorem link_yields {dir first size : ℕ} {name : List UInt8} {now : Stamp} {ok : Bool}
    (h : linkFile v dir name first size now = some (ok, w)) :
    Yields v w (linkEvents v dir name first size now) := by
  obtain ⟨⟨o, u⟩, hf, h⟩ := Option.bind_eq_some_iff.mp h
  rw [linkEvents, hf]
  apply yields_trans (findFree_yields hf)
  cases o with
  | none =>
    obtain rfl := (Prod.mk.inj (Option.some.inj h)).2
    exact yields_self u
  | some p =>
    obtain rfl := (Prod.mk.inj (Option.some.inj h)).2
    exact yields_update u p _

theorem write_yields {dir : ℕ} {name data : List UInt8} {now : Stamp} {ok : Bool}
    (h : writeFileInDir v dir name data now = some (ok, w)) :
    Yields v w (writeEvents v dir name data now) := by
  rw [writeFileInDir] at h
  rw [writeEvents]
  split_ifs at h ⊢
  · obtain rfl := (Prod.mk.inj (Option.some.inj h)).2
    exact yields_self v
  · obtain ⟨r, hd, h⟩ := Option.bind_eq_some_iff.mp h
    have hdrop := drop_yields hd
    rw [hd]
    cases r with
    | none =>
      obtain rfl := (Prod.mk.inj (Option.some.inj h)).2
      exact yields_trans hdrop (yields_self v)
    | some v1 =>
      obtain ⟨⟨o, v2⟩, hs, h⟩ := Option.bind_eq_some_iff.mp h
      apply yields_trans hdrop
      dsimp only [Option.getD_some]
      rw [hs]
      apply yields_trans (store_yields hs)
      cases o with
      | none =>
        obtain rfl := (Prod.mk.inj (Option.some.inj h)).2
        exact yields_self v2
      | some first => exact yields_trans (yields_flush v2) (link_yields h)

theorem mkdir_yields {dir : ℕ} {name : List UInt8} {now : Stamp} {ok : Bool}
    (h : fat16Mkdir v dir name now = some (ok, w)) :
    Yields v w (mkdirEvents v dir name now) := by
  rw [fat16Mkdir] at h
  rw [mkdirEvents]
  split_ifs at h ⊢
  · obtain rfl := (Prod.mk.inj (Option.some.inj h)).2
    exact yields_self v
  · obtain ⟨o, hd, h⟩ := Option.bind_eq_some_iff.mp h
    rw [hd]
    cases o with
    | some p =>
      obtain rfl := (Prod.mk.inj (Option.some.inj h)).2
      exact yields_self v
    | none =>
      obtain ⟨⟨o, u⟩, hf, h⟩ := Option.bind_eq_some_iff.mp h
      have hfree := findFree_yields hf
      dsimp only
      rw [hf]
      apply yields_trans hfree
      cases o with
      | none =>
        obtain rfl := (Prod.mk.inj (Option.some.inj h)).2
        exact yields_self u
      | some p =>
        dsimp only at h ⊢
        rcases alloc_cases u with ⟨-, ha⟩ | ⟨k, -, -, ha⟩
        · rw [ha] at h ⊢
          obtain rfl := (Prod.mk.inj (Option.some.inj h)).2
          exact yields_self u
        · rw [ha] at h ⊢
          rw [← (Prod.mk.inj (Option.some.inj h)).2, ← hfree.bpb]
          refine ⟨rfl, rfl, ?_⟩
          change _ = replay (Volume.updateEntry _ p _).disk (written _)
          rw [replay_written, writeAll_append]
          rfl

end Yields

section Geometry

variable {v w : Volume} {ok : Bool}

theorem unlink_geometry {dir : ℕ} {name : List UInt8}
    (h : fat16Unlink v dir name = some (ok, w)) : w.bpb = v.bpb ∧ w.mounted = v.mounted := by
  rw [fat16Unlink] at h
  split_ifs at h
  · obtain rfl := (Prod.mk.inj (Option.some.inj h)).2
    exact ⟨rfl, rfl⟩
  · obtain ⟨o, -, h⟩ := Option.bind_eq_some_iff.mp h
    cases o with
    | none =>
      obtain rfl := (Prod.mk.inj (Option.some.inj h)).2
      exact ⟨rfl, rfl⟩
    | some p =>
      dsimp only at h
      split_ifs at h
      · obtain rfl := (Prod.mk.inj (Option.some.inj h)).2
        exact ⟨rfl, rfl⟩
      · obtain ⟨u, hu, h⟩ := Option.bind_eq_some_iff.mp h
        have hy := yields_freeChain hu
        obtain rfl := (Prod.mk.inj (Option.some.inj h)).2
        exact ⟨hy.bpb, hy.mounted⟩
      · obtain rfl := (Prod.mk.inj (Option.some.inj h)).2
        exact ⟨rfl, rfl⟩

theorem rename_geometry {oldDir newDir : ℕ} {oldName newName : List UInt8}
    (h : fat16Rename v oldDir oldName newDir newName = some (ok, w)) :
    w.bpb = v.bpb ∧ w.mounted = v.mounted := by
  rw [fat16Rename] at h
  split_ifs at h
  · obtain rfl := (Prod.mk.inj (Option.some.inj h)).2
    exact ⟨rfl, rfl⟩
  · obtain ⟨o, -, h⟩ := Option.bind_eq_some_iff.mp h
    cases o with
    | none =>
      obtain rfl := (Prod.mk.inj (Option.some.inj h)).2
      exact ⟨rfl, rfl⟩
    | some old =>
      obtain ⟨o, -, h⟩ := Option.bind_eq_some_iff.mp h
      cases o with
      | some p =>
        obtain rfl := (Prod.mk.inj (Option.some.inj h)).2
        exact ⟨rfl, rfl⟩
      | none =>
        obtain ⟨⟨o, u⟩, hf, h⟩ := Option.bind_eq_some_iff.mp h
        have hy := findFree_yields hf
        cases o with
        | none =>
          obtain rfl := (Prod.mk.inj (Option.some.inj h)).2
          exact ⟨hy.bpb, hy.mounted⟩
        | some new =>
          have hmove := moveEntry_table u old new (format83Name newName (u.loadEntry old))
          obtain rfl := (Prod.mk.inj (Option.some.inj h)).2
          exact ⟨hmove.1.trans hy.bpb, hmove.2.1.trans hy.mounted⟩

/-- A call leaves the geometry as it is. -/
theorem run_geometry {c : Call} (h : c.run v = some (ok, w)) :
    w.bpb = v.bpb ∧ w.mounted = v.mounted := by
  cases c with
  | writeFileInDir dir name data now =>
    have hy := write_yields h
    exact ⟨hy.bpb, hy.mounted⟩
  | fat16Unlink dir name => exact unlink_geometry h
  | fat16Mkdir dir name now =>
    have hy := mkdir_yields h
    exact ⟨hy.bpb, hy.mounted⟩
  | fat16Rename oldDir oldName newDir newName => exact rename_geometry h

end Geometry

end Vlsmc.VolumeWrites
