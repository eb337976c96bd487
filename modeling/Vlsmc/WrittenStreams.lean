import Vlsmc.FileProtection
import Vlsmc.SequentialWrites
import Vlsmc.StdioOutput

/-!
# Streams over files written in several pieces

A stream hands its bytes to the kernel one full buffer at a time, and the rest when it is closed.
On a kernel that replaces the file at every call, what is read back is the last of these pieces.
-/

set_option autoImplicit false

namespace Vlsmc.WrittenStreams
open Vlsmc.ByteMemory Vlsmc.Words Vlsmc.Fat16Volume Vlsmc.Fat16Files Vlsmc.SequentialWrites
open Vlsmc.Stdio Vlsmc.StdioOutput
open Vlsmc.Fat16Chains (Working)
open Vlsmc.Fat16Operations (WellFormed)
open Vlsmc.Fat16Directory (Reachable)
open Vlsmc.Vfs (Session vfsOpen vfsResolvePath)
open Vlsmc.Fat16Runs (blank validName_A)
open Vlsmc.FileProtection (guarded guarded_working guarded_wellFormed)

variable {K : Type} (sys : Kernel K)

/-- The kernel keeps the volume and the open file of descriptor `fd`, and its calls on `fd` are
those of the syscall layer. -/
structure OnVolume (fd : ℤ) (volume : K → Volume) (file : K → OpenFile) (now : K → Stamp) :
    Prop where
  fwrite : ∀ k data n g u,
    SequentialWrites.sysFwrite (volume k) (file k) data (now k) = some (n, g, u) →
    (sys.fwrite k fd data).1 = n ∧ volume (sys.fwrite k fd data).2 = u ∧
      file (sys.fwrite k fd data).2 = g
  fclose : ∀ k, volume (sys.fclose k fd).2 = volume k

section Flush

variable {v u : Volume} {f g : OpenFile} {dir : ℕ} {name data : List UInt8} {now : Stamp}

theorem fat16Write_cases (h : Opened v f.vn dir name) (hlen : data.length < 2147483648)
    {written : ℤ} (hr : fat16Write v f.vn f.offset data now = some (written, u)) :
    written = data.length ∨ written = -1 := by
  have hmount : ¬v.mounted = false := by simp [h.working.mounted]
  unfold fat16Write at hr
  rw [if_neg hmount, h.node] at hr
  obtain ⟨⟨ok, w⟩, -, hw⟩ := Option.bind_eq_some_iff.mp hr
  cases ok with
  | true =>
    refine Or.inl ((congrArg Prod.fst (Option.some.inj hw)).symm.trans ?_)
    exact if_pos hlen
  | false => exact Or.inr (congrArg Prod.fst (Option.some.inj hw)).symm

/-- A positive answer for a short piece means that all of it is written. -/
theorem sysFwrite_all (h : Opened v f.vn dir name) (hlen : data.length < 2147483648) {n : ℕ}
    (hr : SequentialWrites.sysFwrite v f data now = some (n, g, u)) (hpos : 0 < n) :
    WritesAll v f data now u g := by
  have hcall := hr
  unfold SequentialWrites.sysFwrite at hr
  obtain ⟨⟨written, w⟩, hdriver, hw⟩ := Option.bind_eq_some_iff.mp hr
  dsimp only at hw
  split_ifs at hw with h0
  · obtain ⟨hn, hrest⟩ := Prod.mk.inj (Option.some.inj hw)
    obtain ⟨-, rfl⟩ := Prod.mk.inj hrest
    rcases fat16Write_cases h hlen hdriver with rfl | rfl
    · obtain rfl : data.length = n := hn
      exact ⟨hdriver, hcall⟩
    · exact absurd h0 (by decide)
  · have hn := (Prod.mk.inj (Option.some.inj hw)).1
    omega

theorem sysFwrite_returns (h : Opened v f.vn dir name) (hn : KeptName name) (data : List UInt8)
    (now : Stamp) : ∃ n g u, SequentialWrites.sysFwrite v f data now = some (n, g, u) := by
  have hmount : ¬v.mounted = false := by simp [h.working.mounted]
  obtain ⟨ok, w, hr, -⟩ := Fat16Operations.writeFileInDir_spec h.working h.wellFormed h.reachable
    (hn.fits v dir) data now
  unfold SequentialWrites.sysFwrite fat16Write
  rw [if_neg hmount, h.node]
  dsimp only [Option.bind_eq_bind]
  rw [hr]
  cases ok with
  | true =>
    dsimp only [Option.bind_some, pure]
    split_ifs
    · exact ⟨_, _, _, rfl⟩
    · exact ⟨_, _, _, rfl⟩
  | false => exact ⟨0, f, w, rfl⟩

theorem writes_snoc {cs : List (List UInt8 × Stamp)} {v' : Volume} {f' : OpenFile} :
    ∀ {v : Volume} {f : OpenFile}, Writes v f cs u g → WritesAll u g data now v' f' →
      Writes v f (cs++[(data, now)]) v' f' := by
  induction cs with
  | nil =>
    rintro v f ⟨rfl, rfl⟩ h
    exact ⟨v', f', h, rfl, rfl⟩
  | cons c cs ih =>
    rintro v f ⟨u', g', hwr, hrest⟩ h
    exact ⟨u', g', hwr, ih hrest h⟩

end Flush

section Stream

variable {sys} {volume : K → Volume} {file : K → OpenFile} {now : K → Stamp} {fd : ℤ}
variable {v₀ : Volume} {f₀ : OpenFile} {dir : ℕ} {name : List UInt8}

/-- As long as no flush has failed, the kernel was given full buffers. -/
structure Blocks (volume : K → Volume) (file : K → OpenFile) (fd : ℤ) (v₀ : Volume)
    (f₀ : OpenFile) (f : File) (w : World K) : Prop where
  fd : f.fd = fd
  mode : f.mode = .write
  size : f.bufferSize = bufsiz
  pos : f.bufferPos ≤ f.bufferSize
  sofar : f.error = false → ∃ cs, Writes v₀ f₀ cs (volume w.kernel) (file w.kernel) ∧
    (cs.map Prod.fst).flatten = w.accepted ∧ ∀ c ∈ cs, c.1.length = bufsiz

/-- A flush that succeeds adds one piece, if there is anything to write. -/
theorem fflush_piece (hsys : OnVolume sys fd volume file now) (hn : KeptName name)
    (h₀ : Opened v₀ f₀.vn dir name) {f : File} {w : World K} (hfd : f.fd = fd)
    (hmode : f.mode = .write) (hpos : 0 < f.bufferPos) (hle : f.bufferPos ≤ bufsiz)
    {cs : List (List UInt8 × Stamp)} (hcs : Writes v₀ f₀ cs (volume w.kernel) (file w.kernel))
    (hr : (fflush sys w f).1 = 0) :
    ∃ stamp, Writes v₀ f₀ (cs++[(bytes f.buffer 0 f.bufferPos, stamp)])
        (volume (fflush sys w f).2.2.kernel) (file (fflush sys w f).2.2.kernel) ∧
      (fflush sys w f).2.2.accepted = w.accepted++bytes f.buffer 0 f.bufferPos := by
  obtain ⟨hopen, -⟩ := writes_last hn cs v₀ f₀ h₀ hcs
  obtain ⟨n, g, u, hcall⟩ :=
    sysFwrite_returns hopen hn (bytes f.buffer 0 f.bufferPos) (now w.kernel)
  obtain ⟨hret, hvol, hfile⟩ := hsys.fwrite _ _ _ _ _ hcall
  revert hr
  unfold fflush Stdio.sysFwrite
  rw [if_pos ⟨hmode, hpos⟩, hfd]
  dsimp only
  split_ifs with hle0
  · exact fun hr => absurd (show (-1:ℤ) = 0 from hr) (by decide)
  · intro _
    have hlen : (bytes f.buffer 0 f.bufferPos).length < 2147483648 := by
      rw [bytes_length]
      unfold bufsiz at hle
      omega
    refine ⟨now w.kernel, ?_, rfl⟩
    dsimp only
    rw [hvol, hfile]
    exact writes_snoc hcs (sysFwrite_all hopen hlen hcall (by omega))

/-- Once something was handed over, a byte waits in the buffer. -/
def Pending (f : File) (w : World K) : Prop :=
  f.error = false → w.accepted ≠ [] → 0 < f.bufferPos

theorem fflush_file (sys : Kernel K) (f : File) (w : World K) :
    (fflush sys w f).1 = 0 ∧ (fflush sys w f).2.1 = { f with bufferPos := 0, bytesInBuf := 0 } ∨
    (fflush sys w f).1 ≠ 0 ∧ (fflush sys w f).2.1 = { f with error := true } := by
  unfold fflush
  split_ifs
  · dsimp only
    split_ifs
    · exact Or.inr ⟨(by decide : (-1:ℤ) ≠ 0), rfl⟩
    · exact Or.inl ⟨rfl, rfl⟩
  · exact Or.inl ⟨rfl, rfl⟩

theorem Blocks.copy {f : File} {w : World K} (h : Blocks volume file fd v₀ f₀ f w) (b : Memory)
    {p : ℕ} (hp : p ≤ f.bufferSize) :
    Blocks volume file fd v₀ f₀ { f with buffer := b, bufferPos := p } w :=
  ⟨h.fd, h.mode, h.size, hp, h.sofar⟩

/-- The flush of a full buffer. -/
theorem fflush_blocks (hsys : OnVolume sys fd volume file now) (hn : KeptName name)
    (h₀ : Opened v₀ f₀.vn dir name) {f : File} {w : World K}
    (h : Blocks volume file fd v₀ f₀ f w) (hfull : f.bufferPos = bufsiz) :
    Blocks volume file fd v₀ f₀ (fflush sys w f).2.1 (fflush sys w f).2.2 := by
  rcases fflush_file sys f w with ⟨hr, hf⟩ | ⟨-, hf⟩
  · rw [hf]
    refine ⟨h.fd, h.mode, h.size, Nat.zero_le _, fun herr => ?_⟩
    obtain ⟨cs, hcs, hflat, hlen⟩ := h.sofar herr
    obtain ⟨stamp, hcs', hacc⟩ := fflush_piece hsys hn h₀ h.fd h.mode
      (by rw [hfull]; decide) hfull.le hcs hr
    refine ⟨_, hcs', ?_, fun c hc => ?_⟩
    · rw [hacc, List.map_append, List.flatten_append, hflat]
      simp
    · rcases List.mem_append.mp hc with hc | hc
      · exact hlen c hc
      · rw [List.mem_singleton.mp hc, bytes_length, hfull]
  · rw [hf]
    exact ⟨h.fd, h.mode, h.size, h.pos, fun herr => absurd herr (by simp)⟩

theorem fputc_blocks (hsys : OnVolume sys fd volume file now) (hn : KeptName name)
    (h₀ : Opened v₀ f₀.vn dir name) {f : File} {w : World K}
    (h : Blocks volume file fd v₀ f₀ f w) (hp : Pending f w) (c : ℤ) :
    Blocks volume file fd v₀ f₀ (fputc sys w f c).2.1 (fputc sys w f c).2.2 ∧
      Pending (fputc sys w f c).2.1 (fputc sys w f c).2.2 := by
  have hs : f.bufferSize = 4096 := h.size
  unfold fputc
  split
  · exact ⟨h, hp⟩
  by_cases hfull : f.bufferSize ≤ f.bufferPos
  · have hflush := fflush_blocks hsys hn h₀ h (le_antisymm (h.size ▸ h.pos) (h.size ▸ hfull))
    dsimp only
    rw [if_pos hfull]
    rcases fflush_file sys f w with ⟨hr, hf⟩ | ⟨hr, hf⟩
    · rw [if_neg (not_not.mpr hr)]
      have hzero : (fflush sys w f).2.1.bufferPos = 0 := by rw [hf]
      have hsize : (fflush sys w f).2.1.bufferSize = 4096 := hflush.size
      have hone : u32 ((fflush sys w f).2.1.bufferPos+1) = 1 := by rw [hzero]; rfl
      rw [hone]
      exact ⟨hflush.copy _ (by rw [hsize]; decide), fun _ _ => Nat.one_pos⟩
    · rw [if_pos hr]
      exact ⟨hflush, fun herr => absurd herr (by rw [hf]; simp)⟩
  · dsimp only
    rw [if_neg hfull, if_neg (by simp)]
    have hone : u32 (f.bufferPos+1) = f.bufferPos+1 := u32_of_lt (by omega)
    dsimp only
    rw [hone]
    exact ⟨h.copy _ (by omega), fun _ _ => Nat.succ_pos _⟩

/-- The loop of `fwrite` flushes only when there is more to copy. -/
theorem fwriteLoop_blocks (hsys : OnVolume sys fd volume file now) (hn : KeptName name)
    (h₀ : Opened v₀ f₀.vn dir name) (src : Memory) {total : ℕ} (ht : total < 4294967296)
    (fuel : ℕ) : ∀ (written : ℕ) (f : File) (w : World K), written ≤ total →
      Blocks volume file fd v₀ f₀ f w → (written < total ∨ Pending f w) →
      ∀ n g v, fwriteLoop sys src total fuel written f w = some (n, g, v) →
        Blocks volume file fd v₀ f₀ g v ∧ Pending g v := by
  induction fuel with
  | zero => exact fun _ _ _ _ _ _ _ _ _ hr => absurd hr (by simp [fwriteLoop])
  | succ fuel ih =>
    intro written f w hle h hp n g v hr
    have hs : f.bufferSize = 4096 := h.size
    have hspace := sub32_of_le h.pos (by omega)
    have hrest := sub32_of_le hle ht
    unfold fwriteLoop at hr
    dsimp only at hr
    rw [hspace, hrest] at hr
    split_ifs at hr with hmore hroom hfail
    · have hu : u32 (f.bufferPos+min (total-written) (f.bufferSize-f.bufferPos)) =
          f.bufferPos+min (total-written) (f.bufferSize-f.bufferPos) := u32_of_lt (by omega)
      have hw : u32 (written+min (total-written) (f.bufferSize-f.bufferPos)) =
          written+min (total-written) (f.bufferSize-f.bufferPos) := u32_of_lt (by omega)
      rw [hu, hw] at hr
      exact ih _ _ w (by omega) (h.copy _ (by omega))
        (Or.inr fun _ _ => by dsimp only; omega) n g v hr
    · obtain ⟨-, hrest⟩ := Prod.mk.inj (Option.some.inj hr)
      have hflush := fflush_blocks hsys hn h₀ h (show f.bufferPos = 4096 by have := h.pos; omega)
      rcases fflush_file sys f w with ⟨hz, -⟩ | ⟨-, hf⟩
      · exact absurd hz hfail
      · obtain ⟨rfl, rfl⟩ := Prod.mk.inj hrest
        exact ⟨hflush, fun herr => absurd herr (by rw [hf]; simp)⟩
    · have hflush := fflush_blocks hsys hn h₀ h (show f.bufferPos = 4096 by have := h.pos; omega)
      exact ih written _ _ hle hflush (Or.inl hmore) n g v hr
    · obtain ⟨-, hrest⟩ := Prod.mk.inj (Option.some.inj hr)
      obtain ⟨rfl, rfl⟩ := Prod.mk.inj hrest
      exact ⟨h, hp.resolve_left hmore⟩

theorem output_blocks (hsys : OnVolume sys fd volume file now) (hn : KeptName name)
    (h₀ : Opened v₀ f₀.vn dir name) {s t : Stream K} {c : Output} (hc : c.Fits)
    (hne : c ≠ .fflush) (h : Blocks volume file fd v₀ f₀ s.file s.world)
    (hp : Pending s.file s.world) (ht : output sys s c = some t) :
    Blocks volume file fd v₀ f₀ t.file t.world ∧ Pending t.file t.world := by
  cases c with
  | fputc c =>
    rw [← Option.some.inj ht]
    exact fputc_blocks hsys hn h₀ h hp c
  | fwrite ptr size nmemb =>
    obtain ⟨⟨n, g, v⟩, hr, rfl⟩ := Option.map_eq_some_iff.mp ht
    dsimp only
    unfold fwriteBytes at hr
    cases ptr with
    | none =>
      obtain ⟨-, hrest⟩ := Prod.mk.inj (Option.some.inj hr)
      obtain ⟨rfl, rfl⟩ := Prod.mk.inj hrest
      exact ⟨h, hp⟩
    | some src =>
      dsimp only at hr
      split_ifs at hr with hz hm
      · obtain ⟨-, hrest⟩ := Prod.mk.inj (Option.some.inj hr)
        obtain ⟨rfl, rfl⟩ := Prod.mk.inj hrest
        exact ⟨h, hp⟩
      · obtain ⟨-, hrest⟩ := Prod.mk.inj (Option.some.inj hr)
        obtain ⟨rfl, rfl⟩ := Prod.mk.inj hrest
        exact ⟨h, hp⟩
      · have hfits : u32 (size*nmemb) < 4294967296 := Nat.mod_lt _ (by decide)
        exact fwriteLoop_blocks hsys hn h₀ src hfits _ 0 _ _ (Nat.zero_le _) h (Or.inr hp) n g v hr
  | fflush => exact absurd rfl hne

theorem outputs_blocks (hsys : OnVolume sys fd volume file now) (hn : KeptName name)
    (h₀ : Opened v₀ f₀.vn dir name) (cs : List Output) : ∀ (s t : Stream K),
      (∀ c ∈ cs, c.Fits ∧ c ≠ .fflush) → Blocks volume file fd v₀ f₀ s.file s.world →
      Pending s.file s.world → outputs sys s cs = some t →
      Blocks volume file fd v₀ f₀ t.file t.world ∧ Pending t.file t.world := by
  induction cs with
  | nil =>
    intro s t _ h hp ht
    obtain rfl := Option.some.inj ht
    exact ⟨h, hp⟩
  | cons c cs ih =>
    intro s t hall h hp ht
    obtain ⟨u, hu, ht⟩ := Option.bind_eq_some_iff.mp ht
    obtain ⟨hc, hne⟩ := hall c List.mem_cons_self
    obtain ⟨h', hp'⟩ := output_blocks hsys hn h₀ hc hne h hp hu
    exact ih u t (fun d hd => hall d (List.mem_cons_of_mem c hd)) h' hp' ht

/-- Full buffers, put together. -/
theorem flatten_blocks {cs : List (List UInt8 × Stamp)} (h : ∀ c ∈ cs, c.1.length = bufsiz) :
    (cs.map Prod.fst).flatten.length = bufsiz*cs.length := by
  induction cs with
  | nil => rfl
  | cons c cs ih =>
    rw [List.map_cons, List.flatten_cons, List.length_append, h c List.mem_cons_self,
      ih fun d hd => h d (List.mem_cons_of_mem c hd), List.length_cons]
    ring

/-- After a close that returns 0, the file holds what stood in the buffer last. -/
theorem fclose_reads_back (hsys : OnVolume sys fd volume file now) (hn : KeptName name)
    (h₀ : Opened v₀ f₀.vn dir name) {f : File} {w : World K} {consumed : List UInt8}
    (h : Blocks volume file fd v₀ f₀ f w) (hp : Pending f w) (hwr : Writing consumed f w)
    (herr : f.error = false) (hclose : (Stdio.fclose sys w f).1 = 0) :
    ReadsBack (volume (Stdio.fclose sys w f).2.kernel) f₀.vn consumed ↔
      consumed.length ≤ bufsiz ∧ (consumed = [] → ReadsBack v₀ f₀.vn []) := by
  have hr : (fflush sys w f).1 = 0 := by
    by_contra hr
    unfold Stdio.fclose at hclose
    dsimp only at hclose
    rw [if_neg (by simp [hr])] at hclose
    exact absurd (show (-1:ℤ) = 0 from hclose) (by decide)
  have hvol : volume (Stdio.fclose sys w f).2.kernel = volume (fflush sys w f).2.2.kernel := by
    rw [← hsys.fclose (fflush sys w f).2.2.kernel, ← h.fd]
    rfl
  obtain ⟨cs, hcs, hflat, hlen⟩ := h.sofar herr
  have hacc := flatten_blocks hlen
  rw [hflat] at hacc
  rw [hvol, ← hwr.all]
  by_cases hpos : 0 < f.bufferPos
  · obtain ⟨stamp, hcs', -⟩ := fflush_piece hsys hn h₀ h.fd h.mode hpos (h.size ▸ h.pos) hcs hr
    obtain ⟨-, hvn, hlast⟩ := writes_last hn _ v₀ f₀ h₀ hcs'
    obtain ⟨hread, hshort⟩ := hlast (bytes f.buffer 0 f.bufferPos) (by simp)
    rw [hvn] at hread
    have hsame : ReadsBack (volume (fflush sys w f).2.2.kernel) f₀.vn
        (w.accepted++bytes f.buffer 0 f.bufferPos) ↔ w.accepted = [] := by
      constructor
      · intro hall
        have heq := readsBack_inj hread hall hshort
        rwa [List.append_left_eq_self] at heq
      · intro hnil
        rwa [hnil, List.nil_append]
    rw [hsame]
    have hne : w.accepted++bytes f.buffer 0 f.bufferPos ≠ [] := fun hc => by
      have hl := congrArg List.length (List.append_eq_nil_iff.mp hc).2
      rw [bytes_length, List.length_nil] at hl
      omega
    have hle : f.bufferPos ≤ bufsiz := h.size ▸ h.pos
    rw [List.length_append, bytes_length, hacc]
    constructor
    · intro hnil
      rw [hnil, List.length_nil] at hacc
      exact ⟨by omega, fun hc => absurd hc hne⟩
    · rintro ⟨hshort', -⟩
      rw [← List.length_eq_zero_iff, hacc]
      unfold bufsiz at hshort' ⊢
      omega
  · have hzero : f.bufferPos = 0 := by omega
    have hnil : w.accepted = [] := by
      by_contra hc
      exact hpos (hp herr hc)
    have hcsnil : cs = [] := by
      rw [hnil, List.length_nil] at hacc
      unfold bufsiz at hacc
      exact List.length_eq_zero_iff.mp (by omega)
    subst hcsnil
    have hkernel : (fflush sys w f).2.2 = w := by
      unfold fflush
      rw [if_neg fun hc => hpos hc.2]
    rw [hkernel, hnil, hzero, bytes_zero, List.append_nil, hcs.1]
    simp

theorem start_blocks {f : File} {k k' : K} {filename mode : Option (List Char)} {fileOk : Bool}
    {buffer : Option Memory} (hopen : Stdio.fopen sys k filename mode fileOk buffer = (some f, k'))
    (hmode : f.mode = .write) (hv : volume k' = v₀) (hf : file k' = f₀) :
    Blocks volume file f.fd v₀ f₀ f ⟨k', []⟩ ∧ Pending f (⟨k', []⟩ : World K) ∧
      Writing [] f (⟨k', []⟩ : World K) := by
  obtain ⟨-, -, hsize, hpos, -⟩ := fopen_file sys hopen
  have hle : f.bufferPos ≤ f.bufferSize := by
    rw [hpos]
    exact Nat.zero_le _
  refine ⟨⟨rfl, hmode, hsize, hle, fun _ => ⟨[], ⟨hv, hf⟩, rfl, fun c hc => ?_⟩⟩, fun _ hc => ?_,
    ⟨hmode, hsize, hle, by rw [hpos]; rfl⟩⟩
  · exact absurd hc (by simp)
  · exact absurd rfl hc

end Stream

section RoundTrip

/-- A stream opened for writing on the descriptor `f` of `v`, used without `fflush` and without
an error, and closed with 0. -/
def Streamed (v : Volume) (f : OpenFile) (consumed : List UInt8) (u : Volume) : Prop :=
  ∃ (K : Type) (sys : Kernel K) (volume : K → Volume) (file : K → OpenFile)
    (now : K → Stamp) (k k' : K) (filename mode : Option (List Char)) (fileOk : Bool)
    (buffer : Option Memory) (stream : File) (calls : List Output) (s : Stream K),
    OnVolume sys stream.fd volume file now ∧
    Stdio.fopen sys k filename mode fileOk buffer = (some stream, k') ∧ stream.mode = .write ∧
    volume k' = v ∧ file k' = f ∧ (∀ c ∈ calls, c.Fits ∧ c ≠ .fflush) ∧
    outputs sys ⟨[], stream, ⟨k', []⟩⟩ calls = some s ∧ s.consumed = consumed ∧
    s.file.error = false ∧ (Stdio.fclose sys s.world s.file).1 = 0 ∧
    volume (Stdio.fclose sys s.world s.file).2.kernel = u

theorem streamed_iff {v₀ u : Volume} {f₀ : OpenFile} {dir : ℕ} {name consumed : List UInt8}
    (hn : KeptName name) (h₀ : Opened v₀ f₀.vn dir name) (h : Streamed v₀ f₀ consumed u) :
    ReadsBack u f₀.vn consumed ↔
      consumed.length ≤ bufsiz ∧ (consumed = [] → ReadsBack v₀ f₀.vn []) := by
  obtain ⟨K, sys, volume, file, now, k, k', filename, mode, fileOk, buffer, stream, calls, s,
    hsys, hopen, hmode, hv, hf, hcalls, hrun, rfl, herr, hclose, rfl⟩ := h
  have hstart : Blocks volume file stream.fd v₀ f₀ stream ⟨k', []⟩ ∧
      Pending stream (⟨k', []⟩ : World K) ∧ Writing [] stream (⟨k', []⟩ : World K) :=
    start_blocks hopen hmode hv hf
  obtain ⟨hblocks, hpending, hwriting⟩ := hstart
  obtain ⟨hb, hp⟩ := outputs_blocks hsys hn h₀ calls ⟨[], stream, ⟨k', []⟩⟩ s hcalls hblocks
    hpending hrun
  obtain ⟨t, ht, hw⟩ := outputs_writing sys (s := ⟨[], stream, ⟨k', []⟩⟩) hwriting
    fun c hc => (hcalls c hc).1
  obtain rfl : s = t := by simpa [hrun] using ht
  exact fclose_reads_back hsys hn h₀ hb hp hw herr hclose

/-- The file `A` of `guarded`, as it is opened. -/
def openedA : OpenFile := ⟨⟨.file, 0, 0, some ([0x41], 0)⟩, 0, true⟩

end RoundTrip

end Vlsmc.WrittenStreams
