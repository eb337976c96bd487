import Vlsmc.Fat16RoundTrip
import Vlsmc.VfsDirectories

/-!
# Files written in several pieces

The system calls on an open file keep an offset, and `fat16_write` ignores it: every call
replaces the whole file. A file reads back as what was written when there was nothing to lose,
and `sys_fsize` tells the size that the file had when it was opened.
-/

set_option autoImplicit false

namespace Vlsmc.SequentialWrites
open Vlsmc.Fat16Layout Vlsmc.Fat16Names Vlsmc.Fat16Volume Vlsmc.Fat16Files
open Vlsmc.Fat16Geometry Vlsmc.Fat16Chains Vlsmc.Fat16Directory Vlsmc.Fat16Soundness
open Vlsmc.Fat16Effects Vlsmc.Fat16Operations
open Vlsmc.Fat16Reading Vlsmc.Fat16RoundTrip Vlsmc.Words Vlsmc.Vfs Vlsmc.VfsDirectories

/-- `file`: `writeOnly` is `O_WRONLY` without `O_RDWR`. -/
structure OpenFile where
  vn : Vnode
  offset : ℕ
  writeOnly : Bool

/-- `sys_fopen` with mode 2, up to the descriptor table. -/
def sysFopenWrite (heap : ℕ → Bool) (createOk fileOk : Bool) (s : Session) (path : List UInt8)
    (now : Stamp) : Option (Option OpenFile × Session) := do
  match ← vfsOpen heap createOk s path true now with
  | (none, s) => return (none, s)
  | (some vn, s) => return (if fileOk then some ⟨vn, 0, true⟩ else none, s)

def sysFread (v : Volume) (f : OpenFile) (size : ℕ) : Option (ℕ × List UInt8 × OpenFile) :=
  if f.writeOnly then some (0, [], f)
  else do
    let (readBytes, data) ← fat16Read v f.vn f.offset size
    if 0 < readBytes then
      return (readBytes.toNat, data, { f with offset := u32 (f.offset+readBytes.toNat) })
    else return (0, data, f)

def sysFwrite (v : Volume) (f : OpenFile) (data : List UInt8) (now : Stamp) :
    Option (ℕ × OpenFile × Volume) := do
  let (written, v) ← fat16Write v f.vn f.offset data now
  if 0 < written then
    return (written.toNat, { f with offset := u32 (f.offset+written.toNat) }, v)
  else return (0, f, v)

def sysFsize (f : OpenFile) : ℕ := f.vn.size

/-- The call writes all its bytes. Zero bytes count as written when the driver says so, although
`sys_fwrite` returns zero in any case. -/
structure WritesAll (v : Volume) (f : OpenFile) (data : List UInt8) (now : Stamp) (u : Volume)
    (g : OpenFile) : Prop where
  driver : fat16Write v f.vn f.offset data now = some ((data.length:ℤ), u)
  call : sysFwrite v f data now = some (data.length, g, u)

def Writes : Volume → OpenFile → List (List UInt8 × Stamp) → Volume → OpenFile → Prop
  | v, f, [], v', f' => v' = v ∧ f' = f
  | v, f, c::cs, v', f' => ∃ u g, WritesAll v f c.1 c.2 u g ∧ Writes u g cs v' f'

/-- Every part of the file reads as that part of `data`. -/
def ReadsBack (v : Volume) (vn : Vnode) (data : List UInt8) : Prop :=
  ∀ offset n, offset+n < 4294967296 → fat16Read v vn offset n =
    some (toInt32 ((data.drop offset).take n).length, (data.drop offset).take n)

/-- A name that its 8.3 form keeps. -/
structure KeptName (name : List UInt8) : Prop where
  notDots : NotDots name
  visible : ∀ e : DirEntry, e.attributes &&& attrHiddenMask = 0 → Visible (format83Name name e)
  same : ∀ e, entryName (format83Name name e) = name.map upper

theorem validName_kept {name : List UInt8} (hn : ValidName name) : KeptName name :=
  ⟨validName_notDots hn, format83_visible name hn, entryName_format83 name hn⟩

theorem KeptName.fits {name : List UInt8} (hn : KeptName name) (v : Volume) (d : ℕ) :
    Fits v d name :=
  ⟨hn.notDots, hn.visible, fun e p _ h => by rwa [hn.same]⟩

/-- The vnode of file `name` in directory `dir`. -/
structure Opened (v : Volume) (vn : Vnode) (dir : ℕ) (name : List UInt8) : Prop where
  working : Working v
  wellFormed : WellFormed v
  reachable : Reachable v dir
  type : vn.type = .file
  node : vn.nodeData = some (name, dir)

section Step

variable {v u : Volume} {f g : OpenFile} {dir : ℕ} {name data : List UInt8} {now : Stamp}

theorem reads_file (hw : Working v) (hv : WellFormed v) (hd : Reachable v dir)
    {p : Slot} (hp : VisibleAt v dir p) (hn : NotDots name)
    (hname : entryName (v.entryAt p) = name.map upper) {vn : Vnode} (ht : vn.type = .file)
    (hnode : vn.nodeData = some (name, dir)) (offset n : ℕ) :
    fat16Read v vn offset n = readEntry v (v.entryAt p) offset n :=
  fat16Read_file hw hp.1 ht hnode (lookup_read hw hv.sound hd hp hname hn).1 offset n

/-- A call that counts all of a nonempty piece has written it. -/
theorem call_writesAll (hcall : sysFwrite v f data now = some (data.length, g, u))
    (hpos : 0 < data.length) : WritesAll v f data now u g := by
  refine ⟨?_, hcall⟩
  unfold sysFwrite at hcall
  obtain ⟨⟨written, w⟩, hdriver, hw⟩ := Option.bind_eq_some_iff.mp hcall
  dsimp only at hw
  split_ifs at hw with h0
  · obtain ⟨hn, hrest⟩ := Prod.mk.inj (Option.some.inj hw)
    obtain ⟨-, rfl⟩ := Prod.mk.inj hrest
    have hlen : written = data.length := by omega
    rw [hdriver, hlen]
  · have hn := (Prod.mk.inj (Option.some.inj hw)).1
    omega

theorem driver_writes (h : Opened v f.vn dir name)
    (hwr : fat16Write v f.vn f.offset data now = some ((data.length:ℤ), u)) :
    writeFileInDir v dir name data now = some (true, u) := by
  have hmount : ¬v.mounted = false := by simp [h.working.mounted]
  unfold fat16Write at hwr
  rw [if_neg hmount, h.node] at hwr
  dsimp only at hwr
  cases hr : writeFileInDir v dir name data now with
  | none =>
    rw [hr] at hwr
    exact absurd hwr (by simp)
  | some r =>
    obtain ⟨ok, w⟩ := r
    rw [hr] at hwr
    cases ok with
    | true =>
      have hu := congrArg Prod.snd (Option.some.inj hwr)
      exact congrArg (fun x => some (true, x)) hu
    | false =>
      have hlen : (-1:ℤ) = data.length := congrArg Prod.fst (Option.some.inj hwr)
      omega

theorem writesAll_spec (h : Opened v f.vn dir name) (hn : KeptName name)
    (hwr : WritesAll v f data now u g) :
    Opened u g.vn dir name ∧ g.vn = f.vn ∧ ReadsBack u g.vn data := by
  have hvn : g.vn = f.vn := by
    have hcall := hwr.call
    unfold sysFwrite at hcall
    rw [hwr.driver] at hcall
    dsimp only [Option.bind_eq_bind, Option.bind_some] at hcall
    split_ifs at hcall
    · have hg := congrArg (fun x => x.2.1.vn) (Option.some.inj hcall)
      exact hg.symm
    · have hg := congrArg (fun x => x.2.1.vn) (Option.some.inj hcall)
      exact hg.symm
  obtain ⟨ok, w, hr, hww, hwf, -, ⟨gone, hsp, hgone, -⟩, hok⟩ :=
    writeFileInDir_spec h.working h.wellFormed h.reachable (hn.fits v dir) data now
  obtain ⟨rfl, rfl⟩ : true = ok ∧ u = w := by
    rw [driver_writes h hwr.driver] at hr
    simpa using hr
  obtain ⟨q, e, first, hq, hent, hcont⟩ := hok rfl
  have hname : entryName (u.entryAt q) = name.map upper := by
    rw [hent, freshEntry_name, hn.same]
  have hdu : Reachable u dir :=
    (hsp dir h.reachable fun p hp => own_clear h.wellFormed.sound h.reachable (hgone p hp).1 p rfl).1
  rw [hvn]
  refine ⟨⟨hww, hwf, hdu, h.type, h.node⟩, rfl, fun offset n hlt => ?_⟩
  rw [reads_file hww hwf hdu hq hn.notDots hname h.type h.node]
  exact readEntry_spec hww hcont offset n hlt

theorem writesAll_length (h : Opened v f.vn dir name) (hwr : WritesAll v f data now u g) :
    data.length < 2147483648 := by
  have hmount : ¬v.mounted = false := by simp [h.working.mounted]
  have hdriver := hwr.driver
  unfold fat16Write at hdriver
  rw [if_neg hmount, h.node] at hdriver
  dsimp only at hdriver
  rw [driver_writes h hwr.driver] at hdriver
  have hlen : toInt32 data.length = data.length := congrArg Prod.fst (Option.some.inj hdriver)
  unfold toInt32 at hlen
  split_ifs at hlen with hlt
  · exact hlt
  · omega

end Step

section Sequence

variable {v v' : Volume} {f f' : OpenFile} {dir : ℕ} {name : List UInt8}

/-- After the calls the file holds what the last of them wrote. -/
theorem writes_last (hn : KeptName name) (cs : List (List UInt8 × Stamp)) :
    ∀ (v : Volume) (f : OpenFile), Opened v f.vn dir name → Writes v f cs v' f' →
      Opened v' f'.vn dir name ∧ f'.vn = f.vn ∧ ∀ data, (cs.map Prod.fst).getLast? = some data →
        ReadsBack v' f'.vn data ∧ data.length < 2147483648 := by
  induction cs with
  | nil =>
    rintro v f h ⟨rfl, rfl⟩
    exact ⟨h, rfl, fun data hd => absurd hd (by simp)⟩
  | cons c cs ih =>
    rintro v f h ⟨u, g, hwr, hrest⟩
    obtain ⟨hu, hvn, hread⟩ := writesAll_spec h hn hwr
    obtain ⟨h', hvn', hlast⟩ := ih u g hu hrest
    refine ⟨h', hvn'.trans hvn, fun data hd => ?_⟩
    cases cs with
    | nil =>
      obtain rfl : c.1 = data := by simpa using hd
      obtain ⟨rfl, rfl⟩ := hrest
      exact ⟨hread, writesAll_length h hwr⟩
    | cons c' cs => exact hlast data (by simpa using hd)

/-- Two contents that read the same are the same, when one of them is short enough. -/
theorem readsBack_inj {vn : Vnode} {data data' : List UInt8} (h : ReadsBack v vn data)
    (h' : ReadsBack v vn data') (hlen : data.length < 2147483648) : data' = data := by
  have heq := (h 0 4294967295 (by decide)).symm.trans (h' 0 4294967295 (by decide))
  have htake : data.take 4294967295 = data'.take 4294967295 := by
    simpa using congrArg Prod.snd (Option.some.inj heq)
  rw [List.take_of_length_le (by omega)] at htake
  have hlen' := congrArg List.length htake
  rw [List.length_take] at hlen'
  rw [htake, List.take_of_length_le (by omega)]

theorem flatten_last (L : List (List UInt8)) {data : List UInt8} (h : L.getLast? = some data) :
    L.flatten = data ↔ ∀ c ∈ L.dropLast, c = [] := by
  obtain ⟨L', rfl⟩ := List.getLast?_eq_some_iff.mp h
  rw [List.flatten_append, List.flatten_singleton, List.dropLast_concat, List.append_left_eq_self,
    List.flatten_eq_nil_iff]

/-- An entry of size zero reads as empty. -/
theorem reads_empty (h : Opened v f.vn dir name) (hn : KeptName name)
    (hlook : fat16Lookup true v dir name = some (some f.vn)) (hz : f.vn.size = 0) :
    ReadsBack v f.vn [] := by
  intro offset n _
  rcases lookup_cases h.working h.wellFormed.sound h.reachable hn.notDots with
    ⟨hr, -⟩ | ⟨p, -, hp, hname, -⟩
  · simp [fat16Lookup, hr] at hlook
  · rw [(lookup_read h.working h.wellFormed.sound h.reachable hp hname hn.notDots).2] at hlook
    have hsize : (v.entryAt p).fileSize.toNat = 0 := by
      rw [← hz, ← Option.some.inj (Option.some.inj hlook)]
    rw [reads_file h.working h.wellFormed h.reachable hp hn.notDots hname h.type h.node, readEntry,
      if_pos (by omega)]
    simp [toInt32]

theorem writes_iff (h : Opened v f.vn dir name) (hn : KeptName name)
    (hlook : fat16Lookup true v dir name = some (some f.vn)) {cs : List (List UInt8 × Stamp)}
    (hwr : Writes v f cs v' f') :
    ReadsBack v' f'.vn (cs.map Prod.fst).flatten ∧
        sysFsize f' = (cs.map Prod.fst).flatten.length ↔
      (∀ c ∈ (cs.map Prod.fst).dropLast, c = []) ∧
        f.vn.size = (cs.map Prod.fst).flatten.length := by
  obtain ⟨-, hvn, hlast⟩ := writes_last hn cs v f h hwr
  have hsize : sysFsize f' = f.vn.size := by rw [sysFsize, hvn]
  rw [hsize]
  refine and_congr_left fun hlen => ?_
  cases hL : (cs.map Prod.fst).getLast? with
  | none =>
    obtain rfl := List.map_eq_nil_iff.mp (List.getLast?_eq_none_iff.mp hL)
    obtain ⟨rfl, rfl⟩ := hwr
    exact iff_of_true (reads_empty h hn hlook hlen) fun c hc => absurd hc (by simp)
  | some data =>
    obtain ⟨hread, hshort⟩ := hlast data hL
    rw [← flatten_last _ hL]
    exact ⟨fun hall => readsBack_inj hread hall hshort, fun he => he ▸ hread⟩

end Sequence

section Opening

theorem walk_found (heap : ℕ → Bool) (v : Volume) (cs : List Component) : ∀ (k : ℕ)
    (current vn : Vnode), walk heap v k cs current = some (some vn) → vn = current ∨
      ∃ dir name, fat16Lookup true v dir name = some (some vn) := by
  induction cs with
  | nil =>
    intro k current vn h
    exact Or.inl (Option.some.inj (Option.some.inj h)).symm
  | cons c cs ih =>
    intro k current vn h
    by_cases hl : ∃ next, fat16Lookup (heap k) v current.inodeNum c = some (some next)
    · obtain ⟨next, hnext⟩ := hl
      rw [walk_step cs hnext] at h
      rcases ih (k+1) next vn h with rfl | hfound
      · obtain ⟨p, hp, -, heq⟩ := lookup_some.mp hnext
        exact Or.inr ⟨_, c, lookup_some.mpr ⟨p, hp, rfl, heq⟩⟩
      · exact Or.inr hfound
    · exact absurd h (walk_stop cs hl vn)

theorem created_found {createOk : Bool} {s t : Session} {dir : ℕ} {name : List UInt8}
    {now : Stamp} {vn : Vnode} (h : vnodeCreate createOk s dir name now = some (some vn, t)) :
    ∃ dir name, fat16Lookup true t.volume dir name = some (some vn) := by
  simp only [vnodeCreate, Option.bind_eq_bind, Option.bind_eq_some_iff] at h
  obtain ⟨⟨ok, u⟩, -, h⟩ := h
  cases ok with
  | false => exact absurd (Prod.mk.inj (Option.some.inj h)).1 (by simp)
  | true =>
    obtain ⟨r, hr, h⟩ := Option.bind_eq_some_iff.mp h
    obtain ⟨rfl, rfl⟩ := Prod.mk.inj (Option.some.inj h)
    obtain ⟨p, hp, -, heq⟩ := lookup_some.mp hr
    exact ⟨dir, name, lookup_some.mpr ⟨p, hp, rfl, heq⟩⟩

/-- A file that has been opened can be looked up. -/
theorem vfsOpen_found {heap : ℕ → Bool} {createOk : Bool} {s t : Session} {path : List UInt8}
    {now : Stamp} {vn : Vnode} (h : vfsOpen heap createOk s path true now = some (some vn, t)) :
    vn.type = .file ∧ ∃ dir name, fat16Lookup true t.volume dir name = some (some vn) := by
  obtain ⟨ht, ⟨hfound, rfl⟩ | ⟨-, hmade⟩⟩ := vfsOpen_cases h
  · refine ⟨ht, ?_⟩
    rw [resolve_walk] at hfound
    rcases walk_found heap _ _ 0 _ _ hfound with rfl | hl
    · exact absurd ht (by decide)
    · exact hl
  · exact ⟨ht, created_found hmade⟩

theorem sysFopen_opened {heap : ℕ → Bool} {createOk fileOk : Bool} {s t : Session}
    {path : List UInt8} {now : Stamp} {f : OpenFile} {dir : ℕ} {name : List UInt8}
    (h : sysFopenWrite heap createOk fileOk s path now = some (some f, t))
    (hw : Working t.volume) (hv : WellFormed t.volume) (hd : Reachable t.volume dir)
    (hn : KeptName name) (hnode : f.vn.nodeData = some (name, dir)) :
    Opened t.volume f.vn dir name ∧ fat16Lookup true t.volume dir name = some (some f.vn) := by
  simp only [sysFopenWrite, Option.bind_eq_bind] at h
  obtain ⟨⟨found, u⟩, hfound, h⟩ := Option.bind_eq_some_iff.mp h
  cases found with
  | none => exact absurd (Prod.mk.inj (Option.some.inj h)).1 (by simp)
  | some vn =>
    obtain ⟨hf, rfl⟩ := Prod.mk.inj (Option.some.inj h)
    split_ifs at hf
    obtain rfl := Option.some.inj hf
    obtain ⟨htype, dir', name', hlook⟩ := vfsOpen_found hfound
    refine ⟨⟨hw, hv, hd, htype, hnode⟩, ?_⟩
    have hl := hlook
    obtain ⟨p, hp, -, heq⟩ := lookup_some.mp hlook
    have hnode' : (name'.take 12, dir') = (name, dir) := by
      rw [heq] at hnode
      exact Option.some.inj hnode
    obtain ⟨htake, rfl⟩ := Prod.mk.inj hnode'
    have hdots : NotDots name' := ⟨fun hc => hn.notDots.1 (by rw [← htake, hc]; rfl),
      fun hc => hn.notDots.2 (by rw [← htake, hc]; rfl)⟩
    rcases lookup_cases hw hv.sound hd hdots with ⟨hr, -⟩ | ⟨q, -, -, hname, -⟩
    · rw [hp] at hr
      exact absurd hr (by simp)
    · rw [take_found_name hname] at htake
      rwa [htake] at hl

end Opening

end Vlsmc.SequentialWrites
