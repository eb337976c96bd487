import Vlsmc.Fat16RoundTrip

/-!
# Paths on a volume

A path is a list of names of directories and a last name, each looked up by the driver. On a
sound volume the lookups are the visible entries, so every entry that can be reached has a path,
and the directories on it are a branch of the tree.
-/

set_option autoImplicit false

namespace Vlsmc.PathLookups
open Vlsmc.Fat16Layout Vlsmc.Fat16Names Vlsmc.Fat16Volume Vlsmc.Fat16Files
open Vlsmc.Fat16Geometry Vlsmc.Fat16Chains Vlsmc.Fat16Directory Vlsmc.Fat16Soundness
open Vlsmc.Fat16Updates Vlsmc.Fat16Growth Vlsmc.Fat16Effects Vlsmc.Fat16Operations
open Vlsmc.RootedTree
open Relation

abbrev Name := List UInt8

/-- The directory that the names lead to from directory `d`. -/
def descend (v : Volume) : ℕ → List Name → Option ℕ
  | d, [] => some d
  | d, n::ns =>
    match v.findDirEntry d n with
    | some (some p) =>
      if (v.entryAt p).isDirectory ∧ 2 ≤ (v.entryAt p).cluster then
        descend v (v.entryAt p).cluster ns
      else none
    | _ => none

/-- The slots of the directories that `descend` goes through. -/
def steps (v : Volume) : ℕ → List Name → List Slot
  | _, [] => []
  | d, n::ns =>
    match v.findDirEntry d n with
    | some (some p) => p::steps v (v.entryAt p).cluster ns
    | _ => []

def Finds (v : Volume) (d : ℕ) (n : Name) (p : Slot) : Prop := v.findDirEntry d n = some (some p)

/-- The path `ns`, then `n`, leads from the root to the entry. -/
def Leads (v : Volume) (ns : List Name) (n : Name) (p : Slot) : Prop :=
  ∃ d, descend v 0 ns = some d ∧ Finds v d n p

/-- No component is `.` or `..`. -/
def Plain (ns : List Name) : Prop := ∀ n ∈ ns, NotDots n

section Walks

variable {v : Volume} {d e : ℕ} {n : Name} {ns : List Name} {p : Slot}

theorem finds_unique {q : Slot} (h : Finds v d n p) (h' : Finds v d n q) : p = q :=
  Option.some.inj (Option.some.inj (h.symm.trans h'))

theorem descend_cons : descend v d (n::ns) = some e ↔ ∃ p, Finds v d n p ∧
    (v.entryAt p).isDirectory ∧ 2 ≤ (v.entryAt p).cluster ∧
      descend v (v.entryAt p).cluster ns = some e := by
  change (match v.findDirEntry d n with
    | some (some p) =>
      if (v.entryAt p).isDirectory ∧ 2 ≤ (v.entryAt p).cluster then
        descend v (v.entryAt p).cluster ns
      else none
    | _ => none) = some e ↔ _
  constructor
  · intro h
    split at h
    · rename_i p hp
      split_ifs at h with hdir
      exact ⟨p, hp, hdir.1, hdir.2, h⟩
    · cases h
  · rintro ⟨p, hp, hdir, h2, h⟩
    rw [show v.findDirEntry d n = some (some p) from hp]
    simp only [hdir, h2, and_self, if_true]
    exact h

theorem descend_append {ms : List Name} : descend v d (ms++ns) = some e ↔
    ∃ c, descend v d ms = some c ∧ descend v c ns = some e := by
  induction ms generalizing d with
  | nil =>
    constructor
    · exact fun h => ⟨d, rfl, h⟩
    · rintro ⟨c, hc, h⟩
      obtain rfl := Option.some.inj hc
      exact h
  | cons m ms ih =>
    rw [List.cons_append, descend_cons]
    constructor
    · rintro ⟨p, hp, hdir, h2, h⟩
      obtain ⟨c, hc, hn⟩ := ih.mp h
      exact ⟨c, descend_cons.2 ⟨p, hp, hdir, h2, hc⟩, hn⟩
    · rintro ⟨c, hc, hn⟩
      obtain ⟨p, hp, hdir, h2, h⟩ := descend_cons.1 hc
      exact ⟨p, hp, hdir, h2, ih.mpr ⟨c, h, hn⟩⟩

/-- The last step of a walk. -/
theorem descend_snoc : descend v d (ns++[n]) = some e ↔ ∃ c p, descend v d ns = some c ∧
    Finds v c n p ∧ (v.entryAt p).isDirectory ∧ 2 ≤ (v.entryAt p).cluster ∧
      (v.entryAt p).cluster = e := by
  rw [descend_append]
  constructor
  · rintro ⟨c, hc, hn⟩
    obtain ⟨p, hp, hdir, h2, h⟩ := descend_cons.1 hn
    exact ⟨c, p, hc, hp, hdir, h2, Option.some.inj h⟩
  · rintro ⟨c, p, hc, hp, hdir, h2, he⟩
    exact ⟨c, hc, descend_cons.2 ⟨p, hp, hdir, h2, congrArg some he⟩⟩

theorem leads_snoc {o : Name} {q : Slot} (h : Leads v ns o q) (hdir : (v.entryAt q).isDirectory)
    (h2 : 2 ≤ (v.entryAt q).cluster) (hp : Finds v (v.entryAt q).cluster n p) :
    Leads v (ns++[o]) n p := by
  obtain ⟨c, hc, ho⟩ := h
  exact ⟨_, descend_snoc.2 ⟨c, q, hc, ho, hdir, h2, rfl⟩, hp⟩

theorem steps_cons (hp : Finds v d n p) : steps v d (n::ns) =
    p::steps v (v.entryAt p).cluster ns := by
  change (match v.findDirEntry d n with
    | some (some p) => p::steps v (v.entryAt p).cluster ns
    | _ => []) = _
  rw [show v.findDirEntry d n = some (some p) from hp]

theorem steps_snoc (h : descend v d ns = some e) (hp : Finds v e n p) :
    steps v d (ns++[n]) = steps v d ns++[p] := by
  induction ns generalizing d with
  | nil =>
    obtain rfl := Option.some.inj h
    rw [List.nil_append, steps_cons hp]
    rfl
  | cons m ns ih =>
    obtain ⟨q, hq, -, -, h⟩ := descend_cons.1 h
    rw [List.cons_append, steps_cons hq, steps_cons hq, ih h, List.cons_append]

/-- A walk through an entry is a walk to it and a walk from it. -/
theorem step_split {old : Slot} (h : descend v d ns = some e) (hm : old ∈ steps v d ns) :
    ∃ ms o rest c, ns = ms++o::rest ∧ descend v d ms = some c ∧ Finds v c o old ∧
      (v.entryAt old).isDirectory ∧ 2 ≤ (v.entryAt old).cluster ∧
      descend v (v.entryAt old).cluster rest = some e := by
  induction ns generalizing d with
  | nil => exact absurd hm List.not_mem_nil
  | cons n ns ih =>
    obtain ⟨p, hp, hdir, h2, hrest⟩ := descend_cons.1 h
    rw [steps_cons hp] at hm
    rcases List.mem_cons.mp hm with rfl | hm
    · exact ⟨[], n, ns, d, rfl, rfl, hp, hdir, h2, hrest⟩
    · obtain ⟨ms, o, rest, c, rfl, hc, ho⟩ := ih hrest hm
      exact ⟨n::ms, o, rest, c, rfl, descend_cons.2 ⟨p, hp, hdir, h2, hc⟩, ho⟩

theorem plain_append {ms : List Name} : Plain (ms++ns) ↔ Plain ms ∧ Plain ns := by
  simp only [Plain, List.mem_append, or_imp, forall_and]

theorem plain_cons : Plain (n::ns) ↔ NotDots n ∧ Plain ns := by simp [Plain]

end Walks

section Tree

variable {v : Volume} {d e : ℕ} {n : Name} {ns : List Name} {p : Slot} (hw : Working v)
  (hs : Sound v)
include hw hs

/-- What the driver finds under a name is what is visible under it. -/
theorem finds_iff (hd : Reachable v d) (hn : NotDots n) :
    Finds v d n p ↔ VisibleAt v d p ∧ entryName (v.entryAt p) = n.map upper := by
  rcases lookup_cases hw hs hd hn with ⟨hr, habs⟩ | ⟨q, hr, hq, hname, -⟩
  · refine iff_of_false (fun h => ?_) fun h => habs p h.1 h.2
    exact absurd (hr.symm.trans h) (by simp)
  · constructor
    · intro h
      obtain rfl := finds_unique hr h
      exact ⟨hq, hname⟩
    · rintro ⟨hp, hpn⟩
      obtain rfl := hs.names d p q hd hp hq (hpn.trans hname.symm)
      exact hr

/-- Every visible entry is found under its own name. -/
theorem visible_found (hd : Reachable v d) (hp : VisibleAt v d p) :
    NotDots (decodedName (v.entryAt p)) ∧ Finds v d (decodedName (v.entryAt p)) p := by
  have hn : NotDots (decodedName (v.entryAt p)) :=
    ⟨fun h => hp.2.named (Or.inl h), fun h => hp.2.named (Or.inr h)⟩
  exact ⟨hn, (finds_iff hw hs hd hn).mpr ⟨hp, rfl⟩⟩

theorem descend_below (hd : Reachable v d) (hns : Plain ns) (h : descend v d ns = some e) :
    Below v d e := by
  induction ns generalizing d with
  | nil => exact Option.some.inj h ▸ ReflTransGen.refl
  | cons n ns ih =>
    obtain ⟨hn, hns⟩ := plain_cons.mp hns
    obtain ⟨p, hp, hdir, h2, h⟩ := descend_cons.1 h
    have hchild : Child v d (v.entryAt p).cluster :=
      ⟨p, ((finds_iff hw hs hd hn).mp hp).1, hdir, h2, rfl⟩
    exact ReflTransGen.head hchild (ih (hd.tail hchild) hns h)

theorem descend_reachable (hns : Plain ns) (h : descend v 0 ns = some d) : Reachable v d :=
  descend_below hw hs .refl hns h

theorem below_path (hd : Reachable v d) (h : Below v d e) :
    ∃ ns, Plain ns ∧ descend v d ns = some e := by
  induction h with
  | refl => exact ⟨[], by simp [Plain], rfl⟩
  | @tail b c hb hc ih =>
    obtain ⟨ns, hns, hb'⟩ := ih
    obtain ⟨p, hp, hdir, h2, hpc⟩ := hc
    obtain ⟨hn, hf⟩ := visible_found hw hs (hd.trans hb) hp
    exact ⟨ns++[decodedName (v.entryAt p)], plain_append.mpr ⟨hns, by simpa [Plain] using hn⟩,
      descend_snoc.2 ⟨b, p, hb', hf, hdir, hpc ▸ h2, hpc⟩⟩

/-- Every visible entry of a reachable directory has a path. -/
theorem visible_path (hd : Reachable v d) (hp : VisibleAt v d p) :
    ∃ ns n, Plain ns ∧ NotDots n ∧ descend v 0 ns = some d ∧ Finds v d n p := by
  obtain ⟨ns, hns, h⟩ := below_path hw hs .refl hd
  obtain ⟨hn, hf⟩ := visible_found hw hs hd hp
  exact ⟨ns, _, hns, hn, h, hf⟩

/-- From a directory with a path to an entry, the first directory of the path holds an entry. -/
theorem path_inhabited (hd : Reachable v d) (hns : Plain ns) (hn : NotDots n)
    (h : descend v d ns = some e) (hp : Finds v e n p) : ∃ x, VisibleAt v d x := by
  cases ns with
  | nil =>
    obtain rfl := Option.some.inj h
    exact ⟨p, ((finds_iff hw hs hd hn).mp hp).1⟩
  | cons m ns =>
    obtain ⟨q, hq, -⟩ := descend_cons.1 h
    exact ⟨q, ((finds_iff hw hs hd (plain_cons.mp hns).1).mp hq).1⟩

omit hw hs in
/-- Entries go from one volume to another step by step. -/
theorem path_transport {w : Volume} {gone : Option Slot} {K : ℕ → Prop}
    (hK : ∀ a m q, K a → NotDots m → Finds v a m q → q ∉ gone →
      Finds w a m q ∧ w.entryAt q = v.entryAt q ∧
        ((v.entryAt q).isDirectory → 2 ≤ (v.entryAt q).cluster → K (v.entryAt q).cluster))
    (hd : K d) (hns : Plain ns) (h : descend v d ns = some e) (hgone : ∀ q ∈ gone, q ∉ steps v d ns) :
    descend w d ns = some e ∧ K e := by
  induction ns generalizing d with
  | nil => exact Option.some.inj h ▸ ⟨rfl, hd⟩
  | cons n ns ih =>
    obtain ⟨hn, hns⟩ := plain_cons.mp hns
    obtain ⟨q, hq, hdir, h2, h⟩ := descend_cons.1 h
    rw [steps_cons hq] at hgone
    obtain ⟨hqw, hent, hnext⟩ := hK d n q hd hn hq fun hg => hgone q hg (by simp)
    obtain ⟨hwe, hke⟩ := ih (hnext hdir h2) hns h fun r hr hm => hgone r hr (by simp [hm])
    refine ⟨descend_cons.2 ⟨q, hqw, ?_⟩, hke⟩
    rw [hent]
    exact ⟨hdir, h2, hwe⟩

/-- No walk below a directory comes back to its entry. -/
theorem steps_below {old : Slot} (hd : Reachable v d) (hold : VisibleAt v d old)
    (hdir : (v.entryAt old).isDirectory) (h2 : 2 ≤ (v.entryAt old).cluster) (hns : Plain ns)
    (h : descend v (v.entryAt old).cluster ns = some e) :
    old ∉ steps v (v.entryAt old).cluster ns := by
  intro hm
  have hc : Reachable v (v.entryAt old).cluster := hd.tail ⟨old, hold, hdir, h2, rfl⟩
  obtain ⟨ms, o, rest, c, rfl, hms, ho, -⟩ := step_split h hm
  obtain ⟨hpm, hpo⟩ := plain_append.mp hns
  have hb := descend_below hw hs hc hpm hms
  have hin := ((finds_iff hw hs (hc.trans hb) (plain_cons.mp hpo).1).mp ho).1
  obtain rfl := inDir_unique hs (hc.trans hb) hd hin.1 hold.1
  exact own_clear hs hd hold old rfl hdir h2 hb

/-- A directory that lies below an entry is reached through it. -/
theorem below_steps {old : Slot} (hd : Reachable v d) (hold : VisibleAt v d old)
    (hdir : (v.entryAt old).isDirectory) (h2 : 2 ≤ (v.entryAt old).cluster)
    (hb : Below v (v.entryAt old).cluster e) :
    ∃ ms o rest, Plain ms ∧ NotDots o ∧ Plain rest ∧ descend v 0 ms = some d ∧
      Finds v d o old ∧ descend v (v.entryAt old).cluster rest = some e := by
  obtain ⟨ms, o, hms, ho, hd', hf⟩ := visible_path hw hs hd hold
  obtain ⟨rest, hrest, he⟩ := below_path hw hs (hd.tail ⟨old, hold, hdir, h2, rfl⟩) hb
  exact ⟨ms, o, rest, hms, ho, hrest, hd', hf, he⟩

end Tree

end Vlsmc.PathLookups
