import Vlsmc.Fat16Namespace

/-!
# Sequences of calls

Every call of the driver returns and keeps a well-formed volume well formed, so
the volume is well formed after every call of every sequence.
-/

set_option autoImplicit false

namespace Vlsmc.Fat16Runs
open Vlsmc.Fat16Layout Vlsmc.Fat16Names Vlsmc.Fat16Volume Vlsmc.Fat16Files
open Vlsmc.Fat16Geometry Vlsmc.Fat16Chains Vlsmc.Fat16Directory
open Vlsmc.Fat16Operations Vlsmc.Fat16Namespace

inductive Call
  | writeFileInDir (dir : ℕ) (name data : List UInt8) (now : Stamp)
  | fat16Unlink (dir : ℕ) (name : List UInt8)
  | fat16Mkdir (dir : ℕ) (name : List UInt8) (now : Stamp)
  | fat16Rename (oldDir : ℕ) (oldName : List UInt8) (newDir : ℕ) (newName : List UInt8)

namespace Call

def run : Call → Volume → Option (Bool × Volume)
  | .writeFileInDir dir name data now, v => Fat16Files.writeFileInDir v dir name data now
  | .fat16Unlink dir name, v => Fat16Files.fat16Unlink v dir name
  | .fat16Mkdir dir name now, v => Fat16Files.fat16Mkdir v dir name now
  | .fat16Rename oldDir oldName newDir newName, v =>
    Fat16Files.fat16Rename v oldDir oldName newDir newName

/-- The directories are reachable when the call is made, and the names are valid. -/
def Allowed (v : Volume) : Call → Prop
  | .writeFileInDir dir name _ _ => Reachable v dir ∧ ValidName name
  | .fat16Unlink dir name => Reachable v dir ∧ ValidName name
  | .fat16Mkdir dir name _ => Reachable v dir ∧ ValidName name
  | .fat16Rename oldDir oldName newDir newName => Reachable v oldDir ∧ ValidName oldName ∧
    Reachable v newDir ∧ ValidName newName

end Call

/-- Every call of the sequence is allowed when it is made. -/
def Admissible : List Call → Volume → Prop
  | [], _ => True
  | c::cs, v => c.Allowed v ∧ ∀ ok u, c.run v = some (ok, u) → Admissible cs u

/-- Every call of the sequence returns, and the volume is well formed before
the first and after every call. -/
def WellFormedThroughout : List Call → Volume → Prop
  | [], v => WellFormed v
  | c::cs, v => WellFormed v ∧ ∃ ok u, c.run v = some (ok, u) ∧ WellFormedThroughout cs u

theorem run_spec (c : Call) (v : Volume) (hw : Working v) (hv : WellFormed v)
    (hc : c.Allowed v) : ∃ ok w, c.run v = some (ok, w) ∧ Working w ∧ WellFormed w := by
  cases c with
  | writeFileInDir dir name data now =>
    obtain ⟨ok, w, hr, hww, hwf, -⟩ :=
      writeFileInDir_spec hw hv hc.1 (validName_fits hc.2 v dir) data now
    exact ⟨ok, w, hr, hww, hwf⟩
  | fat16Unlink dir name =>
    obtain ⟨ok, w, hr, hww, hwf, -⟩ :=
      fat16Unlink_spec hw hv.sound hc.1 (validName_notDots hc.2) hv.flushed
    exact ⟨ok, w, hr, hww, hwf⟩
  | fat16Mkdir dir name now =>
    obtain ⟨ok, w, hr, hww, hwf, -⟩ :=
      fat16Mkdir_spec hw hv hc.1 (validName_fits hc.2 v dir) now
    exact ⟨ok, w, hr, hww, hwf⟩
  | fat16Rename oldDir oldName newDir newName =>
    obtain ⟨ok, w, hr, hww, hwf, -⟩ := fat16Rename_spec hw hv hc.1 hc.2.2.1
      (validName_notDots hc.2.1) (validName_fits hc.2.2.2 v newDir)
    exact ⟨ok, w, hr, hww, hwf⟩

/-- Well-formedness holds after every call of every admissible sequence. -/
theorem wellFormed_throughout (cs : List Call) (v : Volume) (hw : Working v)
    (hv : WellFormed v) (hcs : Admissible cs v) : WellFormedThroughout cs v := by
  induction cs generalizing v with
  | nil => exact hv
  | cons c cs ih =>
    obtain ⟨ok, u, hr, hwu, hvu⟩ := run_spec c v hw hv hcs.1
    exact ⟨hv, ok, u, hr, ih u hwu hvu (hcs.2 ok u hr)⟩

/-- One sector of table, sixteen root entries, one sector per cluster, all zero. -/
def blank : Volume where
  bpb := {
    sectorsPerCluster := 1
    reservedSectors := 1
    numFats := 1
    rootEntryCount := 16
    fatSize16 := 1 }
  mounted := true
  fatTable := fun _ => 0
  disk := { size := 300, data := fun _ => zeroSector }

theorem blank_entry (p : Slot) : (blank.entryAt p).isEnd := getEntry_zero p.2

theorem blank_not_visible (d : ℕ) (p : Slot) : ¬ VisibleAt blank d p := fun h =>
  h.2.used (blank_entry p)

theorem blank_working : Working blank := ⟨rfl, by decide, by decide⟩

theorem blank_wellFormed : WellFormed blank := by
  refine ⟨⟨fun d p _ hp => ?_, fun d p _ _ _ _ _ hp => ?_, fun d L _ _ => ?_,
    fun d p _ _ hp => ?_⟩, fun f _ s _ i _ _ => rfl⟩
  · exact absurd hp (blank_not_visible d p)
  · exact absurd hp (blank_not_visible d p)
  · exact List.pairwise_of_forall fun p q _ => blank_entry q
  · exact absurd hp (blank_not_visible d p)

/-- The valid name `A`. -/
theorem validName_A : ValidName [0x41] := ⟨[0x41], [], by decide +kernel⟩

/-- The valid name `B.C`. -/
theorem validName_B_C : ValidName [0x42, 0x2E, 0x43] := ⟨[0x42], [0x43], by decide +kernel⟩

theorem wellFormed_throughout_blank :
    WellFormedThroughout [.writeFileInDir 0 [0x41] [1, 2, 3] ⟨0, 0⟩, .fat16Mkdir 0 [0x42, 0x2E, 0x43] ⟨0, 0⟩,
      .fat16Rename 0 [0x42, 0x2E, 0x43] 0 [0x41], .fat16Unlink 0 [0x41]] blank :=
  wellFormed_throughout _ blank blank_working blank_wellFormed
    ⟨⟨.refl, validName_A⟩, fun _ _ _ => ⟨⟨.refl, validName_B_C⟩, fun _ _ _ =>
      ⟨⟨.refl, validName_B_C, .refl, validName_A⟩, fun _ _ _ => ⟨⟨.refl, validName_A⟩,
        fun _ _ _ => trivial⟩⟩⟩⟩

end Vlsmc.Fat16Runs
