import Vlsmc.Stdio

/-!
# Output streams

What a stream has been given is what `SYS_FWRITE` has accepted, followed by what
stands in the buffer, at every call of `fputc`, `fwrite` and `fflush` and after a
flush that failed.
-/

set_option autoImplicit false

namespace Vlsmc.StdioOutput
open Vlsmc.ByteMemory Vlsmc.Words Vlsmc.Stdio

variable {K : Type} (sys : Kernel K)

/-- A stream open for writing, whose calls consumed the bytes `consumed`. -/
structure Writing (consumed : List UInt8) (f : File) (w : World K) : Prop where
  mode : f.mode = .write
  size : f.bufferSize = bufsiz
  pos : f.bufferPos ≤ f.bufferSize
  all : w.accepted ++ bytes f.buffer 0 f.bufferPos = consumed

variable {consumed : List UInt8} {f : File} {w : World K}

theorem fflush_writing (h : Writing consumed f w) :
    Writing consumed (fflush sys w f).2.1 (fflush sys w f).2.2 := by
  unfold fflush sysFwrite
  split
  · dsimp only
    split
    · case isTrue hr =>
      exact ⟨h.mode, h.size, h.pos, by simpa [hr] using h.all⟩
    · case isFalse hr =>
      exact ⟨h.mode, h.size, Nat.zero_le _, by simpa [hr] using h.all⟩
  · case isFalse hc =>
    have hp : f.bufferPos = 0 := by
      have := h.mode
      by_contra hp
      exact hc ⟨this, by omega⟩
    exact ⟨h.mode, h.size, Nat.zero_le _, by simpa [hp] using h.all⟩

/-- After a flush that succeeds the buffer is empty. -/
theorem fflush_empty (h : (fflush sys w f).1 = 0) : (fflush sys w f).2.1.bufferPos = 0 := by
  revert h
  unfold fflush
  split
  · dsimp only
    split
    · intro h
      exact absurd (show (-1:ℤ) = 0 from h) (by decide)
    · exact fun _ => rfl
  · exact fun _ => rfl

theorem Writing.append (h : Writing consumed f w) {n : ℕ} (hn : f.bufferPos+n ≤ f.bufferSize)
    (src : ℕ → UInt8) :
    Writing (consumed ++ bytes src 0 n)
      { f with
        buffer := place f.buffer f.bufferPos n src
        bufferPos := u32 (f.bufferPos+n) } w := by
  have hs : f.bufferSize = 4096 := h.size
  have hu : u32 (f.bufferPos+n) = f.bufferPos+n := u32_of_lt (by omega)
  have hold : bytes (place f.buffer f.bufferPos n src) 0 f.bufferPos =
      bytes f.buffer 0 f.bufferPos :=
    bytes_congr fun i hi => place_ne _ _ (by omega)
  have hnew : bytes (place f.buffer f.bufferPos n src) (0+f.bufferPos) n = bytes src 0 n := by
    apply bytes_congr
    intro i hi
    rw [Nat.zero_add, Nat.zero_add, place_get _ _ hi]
  refine ⟨h.mode, h.size, ?_, ?_⟩
  · rw [hu]
    exact hn
  · rw [hu, bytes_add, hold, hnew, ← List.append_assoc, h.all]

theorem fputc_writing (h : Writing consumed f w) (c : ℤ) :
    ((fputc sys w f c).1 = eofValue ∧
      Writing consumed (fputc sys w f c).2.1 (fputc sys w f c).2.2) ∨
    ((fputc sys w f c).1 ≠ eofValue ∧
      Writing (consumed++[UInt8.ofInt c]) (fputc sys w f c).2.1 (fputc sys w f c).2.2) := by
  have hs : f.bufferSize = 4096 := h.size
  have store : ∀ (g : File) (v : World K), Writing consumed g v → g.bufferPos < g.bufferSize →
      Writing (consumed++[UInt8.ofInt c]) { g with
        buffer := write8 g.buffer g.bufferPos (UInt8.ofInt c)
        bufferPos := u32 (g.bufferPos+1) } v := by
    intro g v hg hlt
    have := hg.append (n := 1) hlt fun _ => UInt8.ofInt c
    rwa [place_one] at this
  have noEof : ((UInt8.ofInt c).toNat : ℤ) ≠ eofValue := by
    unfold eofValue
    omega
  unfold fputc
  split
  · exact .inl ⟨rfl, h⟩
  by_cases hfull : f.bufferSize ≤ f.bufferPos
  · have hflush : Writing consumed _ _ := fflush_writing sys h
    dsimp only
    rw [if_pos hfull]
    split
    · exact .inl ⟨rfl, hflush⟩
    · case isFalse hr =>
      have hz := fflush_empty sys (not_not.mp hr)
      have hpos : (fflush sys w f).2.1.bufferPos < (fflush sys w f).2.1.bufferSize := by
        rw [hz, hflush.size]
        decide
      exact .inr ⟨noEof, store _ _ hflush hpos⟩
  · dsimp only
    rw [if_neg hfull, if_neg (by simp)]
    exact .inr ⟨noEof, store f w h (by omega)⟩

/-- The loop ends, within a budget of two rounds a byte, and consumes the bytes it
counts. -/
theorem fwriteLoop_writing (src : Memory) {total : ℕ} (ht : total < 4294967296)
    (fuel written : ℕ) (consumed : List UInt8) (f : File) (w : World K)
    (h : Writing consumed f w) (hle : written ≤ total)
    (hfuel : 2*(total-written)+(if f.bufferPos < f.bufferSize then 0 else 1) < fuel) :
    ∃ n g v, fwriteLoop sys src total fuel written f w = some (n, g, v) ∧ written ≤ n ∧
      n ≤ total ∧ Writing (consumed ++ bytes src written (n-written)) g v := by
  induction fuel generalizing written consumed f w with
  | zero => omega
  | succ fuel ih =>
    have hs : f.bufferSize = 4096 := h.size
    have hspace := sub32_of_le h.pos (by omega)
    have hrest := sub32_of_le hle ht
    by_cases hdone : written < total
    swap
    · refine ⟨written, f, w, ?_, le_refl _, hle, ?_⟩
      · rw [fwriteLoop, if_neg hdone]
      · simpa using h
    by_cases hroom : f.bufferPos < f.bufferSize
    · -- there is room: the round copies, and counts at least one byte
      obtain ⟨c, hc⟩ : ∃ c, min (total-written) (f.bufferSize-f.bufferPos) = c := ⟨_, rfl⟩
      have hc1 : 1 ≤ c := by omega
      have hu : u32 (written+c) = written+c := u32_of_lt (by omega)
      obtain ⟨n, g, v, heq, hn, hn', hw⟩ := ih (written+c) _ _ w
        (h.append (n := c) (by omega) fun i => src (written+i)) (by omega) (by
          split <;> split at hfuel <;> omega)
      refine ⟨n, g, v, ?_, by omega, hn', ?_⟩
      · rw [fwriteLoop, if_pos hdone]
        dsimp only
        rw [hspace, hrest, if_pos (by omega), hc, hu]
        exact heq
      · have hsplit : bytes src written (n-written) =
            bytes (fun i => src (written+i)) 0 c ++ bytes src (written+c) (n-(written+c)) := by
          rw [show n-written = c+(n-(written+c)) by omega, bytes_add]
          congr 1
          exact bytes_congr fun i _ => by rw [Nat.zero_add]
        rw [hsplit, ← List.append_assoc]
        exact hw
    · -- the buffer is full: the round flushes, and the next one copies
      have hflush := fflush_writing sys h
      rw [fwriteLoop, if_pos hdone]
      dsimp only
      rw [hspace, if_neg (by omega)]
      split
      · refine ⟨written, _, _, rfl, le_refl _, hle, ?_⟩
        simpa using hflush
      · case isFalse hr =>
        have hz := fflush_empty sys (not_not.mp hr)
        apply ih written consumed _ _ hflush hle
        rw [if_pos (by rw [hz, hflush.size]; decide)]
        rw [if_neg hroom] at hfuel
        omega

theorem fwriteBytes_writing (h : Writing consumed f w) (ptr : Option Memory) {size nmemb : ℕ}
    (ht : size*nmemb < 4294967296) :
    ∃ n g v, fwriteBytes sys w f ptr size nmemb = some (n, g, v) ∧
      Writing (consumed ++ bytes (ptr.getD fun _ => 0) 0 n) g v := by
  have none' : Writing (consumed ++ bytes (ptr.getD fun _ => 0) 0 0) f w := by
    simpa using h
  unfold fwriteBytes
  cases ptr with
  | none => exact ⟨0, f, w, rfl, none'⟩
  | some src =>
    dsimp only
    split
    · exact ⟨0, f, w, rfl, none'⟩
    · rw [if_neg (not_not.mpr h.mode), u32_of_lt ht]
      obtain ⟨n, g, v, heq, -, -, hw⟩ := fwriteLoop_writing sys src ht (2*(size*nmemb)+2) 0
        consumed f w h (Nat.zero_le _) (by split <;> omega)
      exact ⟨n, g, v, heq, hw⟩

inductive Output
  | fputc (c : ℤ)
  | fwrite (ptr : Option Memory) (size nmemb : ℕ)
  | fflush

def Output.Fits : Output → Prop
  | .fwrite _ size nmemb => size*nmemb < 4294967296
  | _ => True

/-- A stream in use: what its calls have consumed, the stream and the kernel. -/
structure Stream (K : Type) where
  consumed : List UInt8
  file : File
  world : World K

def output (s : Stream K) : Output → Option (Stream K)
  | .fputc c =>
    let r := fputc sys s.world s.file c
    some ⟨if r.1 = eofValue then s.consumed else s.consumed++[UInt8.ofInt c], r.2.1, r.2.2⟩
  | .fwrite ptr size nmemb =>
    (fwriteBytes sys s.world s.file ptr size nmemb).map fun r =>
      ⟨s.consumed ++ bytes (ptr.getD fun _ => 0) 0 r.1, r.2.1, r.2.2⟩
  | .fflush =>
    let r := fflush sys s.world s.file
    some ⟨s.consumed, r.2.1, r.2.2⟩

def outputs (s : Stream K) : List Output → Option (Stream K)
  | [] => some s
  | c::cs => (output sys s c).bind fun s => outputs s cs

theorem output_writing {s : Stream K} {c : Output} (h : Writing s.consumed s.file s.world)
    (hc : c.Fits) :
    ∃ t, output sys s c = some t ∧ Writing t.consumed t.file t.world := by
  cases c with
  | fputc c =>
    refine ⟨_, rfl, ?_⟩
    dsimp only
    rcases fputc_writing sys h c with ⟨hr, hw⟩ | ⟨hr, hw⟩
    · rw [if_pos hr]
      exact hw
    · rw [if_neg hr]
      exact hw
  | fwrite ptr size nmemb =>
    obtain ⟨n, g, v, heq, hw⟩ := fwriteBytes_writing sys h ptr hc
    refine ⟨⟨s.consumed ++ bytes (ptr.getD fun _ => 0) 0 n, g, v⟩, ?_, hw⟩
    rw [output, heq]
    rfl
  | fflush => exact ⟨_, rfl, fflush_writing sys h⟩

theorem outputs_writing {s : Stream K} {cs : List Output}
    (h : Writing s.consumed s.file s.world) (hc : ∀ c ∈ cs, c.Fits) :
    ∃ t, outputs sys s cs = some t ∧ Writing t.consumed t.file t.world := by
  induction cs generalizing s with
  | nil => exact ⟨s, rfl, h⟩
  | cons c cs ih =>
    obtain ⟨t, ht, hw⟩ := output_writing sys h (hc c List.mem_cons_self)
    obtain ⟨u, hu, hw'⟩ := ih hw fun d hd => hc d (List.mem_cons_of_mem c hd)
    refine ⟨u, ?_, hw'⟩
    rw [outputs, ht]
    exact hu

/-- `fclose` returns 0 only after its flush has emptied the buffer. -/
theorem fclose_accepted (h : Writing consumed f w) (hz : (fclose sys w f).1 = 0) :
    (fclose sys w f).2.accepted = consumed := by
  have hr : (fflush sys w f).1 = 0 := by
    by_contra hr
    unfold fclose at hz
    dsimp only at hz
    rw [if_neg (by simp [hr])] at hz
    exact absurd (show (-1:ℤ) = 0 from hz) (by decide)
  have hall := (fflush_writing sys h).all
  rw [fflush_empty sys hr, bytes_zero, List.append_nil] at hall
  exact hall

/-- At every call, the bytes accepted by `SYS_FWRITE` followed by the buffered ones are
the bytes consumed, and a stream that closes with 0 leaves none behind. -/
theorem output_stream_lossless {k k' : K} {filename mode : Option (List Char)} {file : Bool}
    {buffer : Option Memory} {f : File}
    (hopen : fopen sys k filename mode file buffer = (some f, k')) (hmode : f.mode = .write)
    {calls : List Output} (hcalls : ∀ c ∈ calls, c.Fits) :
    ∃ s, outputs sys ⟨[], f, ⟨k', []⟩⟩ calls = some s ∧
      s.world.accepted ++ bytes s.file.buffer 0 s.file.bufferPos = s.consumed ∧
      s.file.bufferPos ≤ s.file.bufferSize ∧
      ((fclose sys s.world s.file).1 = 0 →
        (fclose sys s.world s.file).2.accepted = s.consumed) := by
  obtain ⟨-, -, hsize, hpos, -⟩ := fopen_file sys hopen
  have hstart : Writing [] f (⟨k', []⟩ : World K) :=
    ⟨hmode, hsize, by rw [hpos]; exact Nat.zero_le _, by rw [hpos]; rfl⟩
  obtain ⟨s, hs, hw⟩ := outputs_writing sys (s := ⟨[], f, ⟨k', []⟩⟩) hstart hcalls
  exact ⟨s, hs, hw.all, hw.pos, fclose_accepted sys hw⟩

/-- A kernel whose first `SYS_FWRITE` fails. -/
def flakyKernel : Kernel ℕ where
  fopen := fun k _ _ => (3, k)
  fclose := fun k _ => (0, k)
  fread := fun k _ _ => (0, [], k)
  fwrite := fun k _ data => (if k = 0 then -1 else data.length, k+1)

theorem output_stream_lossless_flaky :
    ∃ s, outputs flakyKernel ⟨[], ⟨3, .write, false, false, fun _ => 0, bufsiz, 0, 0⟩, ⟨0, []⟩⟩
        [.fputc 65, .fflush, .fwrite (some fun _ => 66) 2 3, .fflush] = some s ∧
      s.world.accepted ++ bytes s.file.buffer 0 s.file.bufferPos = s.consumed ∧
      s.file.bufferPos ≤ s.file.bufferSize ∧
      ((fclose flakyKernel s.world s.file).1 = 0 →
        (fclose flakyKernel s.world s.file).2.accepted = s.consumed) :=
  output_stream_lossless flakyKernel
    (show fopen flakyKernel 0 (some ['f']) (some ['w']) true (some fun _ => 0) = _ from rfl) rfl
    (by simp [Output.Fits])

end Vlsmc.StdioOutput
