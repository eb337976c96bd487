import Vlsmc.Stdio

/-!
# Input streams

What `fgetc` and `fread` have delivered, followed by what stands in the buffer and
by what `SYS_FREAD` has not handed out yet, is the file.
-/

set_option autoImplicit false

namespace Vlsmc.StdioInput
open Vlsmc.ByteMemory Vlsmc.Words Vlsmc.Stdio

variable {K : Type} (sys : Kernel K)

/-- `SYS_FREAD` on `fd` stores some of the bytes that remain, at least one, and returns
0 when none does. -/
def HandsOut (fd : ℤ) (rest : K → List UInt8) : Prop :=
  ∀ k n, 0 < n →
    if rest k = [] then
      (sys.fread k fd n).1 = 0 ∧ rest (sys.fread k fd n).2.2 = []
    else ∃ j : ℕ, 1 ≤ j ∧ j ≤ n ∧ j ≤ (rest k).length ∧
      (sys.fread k fd n).1 = j ∧ (sys.fread k fd n).2.1 = (rest k).take j ∧
      rest (sys.fread k fd n).2.2 = (rest k).drop j

/-- The bytes read ahead. -/
def ahead (f : File) : List UInt8 := bytes f.buffer f.bufferPos (f.bytesInBuf-f.bufferPos)

/-- A stream open for reading a file of `contents`, `delivered` of it so far. -/
structure Reading (fd : ℤ) (rest : K → List UInt8) (contents delivered : List UInt8) (f : File)
    (k : K) : Prop where
  fd : f.fd = fd
  mode : f.mode = .read
  error : f.error = false
  size : f.bufferSize = bufsiz
  pos : f.bufferPos ≤ f.bytesInBuf
  inBuf : f.bytesInBuf ≤ f.bufferSize
  all : delivered ++ ahead f ++ rest k = contents
  eof : f.eof = true → f.bytesInBuf ≤ f.bufferPos ∧ rest k = []

variable {fd : ℤ} {rest : K → List UInt8} {contents delivered : List UInt8} {f : File} {k : K}

theorem ahead_nil (h : f.bytesInBuf ≤ f.bufferPos) : ahead f = [] := by
  unfold ahead
  rw [Nat.sub_eq_zero_of_le h, bytes_zero]

theorem Reading.whole (h : Reading fd rest contents delivered f k)
    (hb : f.bytesInBuf ≤ f.bufferPos) (hr : rest k = []) : delivered = contents := by
  have hall := h.all
  rwa [ahead_nil hb, hr, List.append_nil, List.append_nil] at hall

theorem Reading.take (h : Reading fd rest contents delivered f k) {n : ℕ} (hn : 1 ≤ n)
    (hle : f.bufferPos+n ≤ f.bytesInBuf) :
    Reading fd rest contents (delivered ++ bytes f.buffer f.bufferPos n)
      { f with bufferPos := u32 (f.bufferPos+n) } k := by
  have hs : f.bufferSize = 4096 := h.size
  have hin := h.inBuf
  have hu : u32 (f.bufferPos+n) = f.bufferPos+n := u32_of_lt (by omega)
  have hsplit : ahead f = bytes f.buffer f.bufferPos n ++
      bytes f.buffer (f.bufferPos+n) (f.bytesInBuf-(f.bufferPos+n)) := by
    unfold ahead
    rw [show f.bytesInBuf-f.bufferPos = n+(f.bytesInBuf-(f.bufferPos+n)) by omega, bytes_add]
  refine ⟨h.fd, h.mode, h.error, h.size, ?_, h.inBuf, ?_, ?_⟩
  · rw [hu]
    exact hle
  · have hall := h.all
    rw [hsplit] at hall
    rw [hu]
    simpa [ahead] using hall
  · intro he
    have := (h.eof he).1
    omega

/-- A refill of an empty buffer reaches the end of the file, or reads ahead. -/
theorem refill_reading (hand : HandsOut sys fd rest) (h : Reading fd rest contents delivered f k)
    (hb : f.bytesInBuf ≤ f.bufferPos) :
    Reading fd rest contents delivered (refill sys k f).2.1 (refill sys k f).2.2 ∧
    (if (refill sys k f).1 ≤ 0 then delivered = contents
      else (refill sys k f).2.1.bufferPos < (refill sys k f).2.1.bytesInBuf) := by
  have hs : f.bufferSize = 4096 := h.size
  have hread := hand k f.bufferSize (by omega)
  rw [← h.fd] at hread
  have hall := h.all
  rw [ahead_nil hb, List.append_nil] at hall
  unfold refill
  obtain ⟨⟨z, data, k'⟩, hz⟩ : ∃ r, sys.fread k f.fd f.bufferSize = r := ⟨_, rfl⟩
  rw [hz] at hread ⊢
  dsimp only at hread ⊢
  by_cases hrest : rest k = []
  · rw [if_pos hrest] at hread
    obtain ⟨rfl, hk⟩ := hread
    rw [if_pos (le_refl _)]
    refine ⟨⟨h.fd, h.mode, h.error, h.size, h.pos, h.inBuf, ?_, fun _ => ⟨hb, hk⟩⟩, ?_⟩
    · have hnone := ahead_nil (f := { f with
        eof := true, buffer := place f.buffer 0 data.length fun i => data.getD i 0 }) hb
      dsimp only
      rw [hnone, List.append_nil, hk, ← hrest]
      exact hall
    · rw [if_pos (le_refl _)]
      exact h.whole hb hrest
  · rw [if_neg hrest] at hread
    obtain ⟨j, hj, hjn, hjl, rfl, rfl, hk⟩ := hread
    rw [if_neg (by omega)]
    have hlen : ((rest k).take j).length = j := by
      rw [List.length_take]
      omega
    have hnew : bytes (place f.buffer 0 j fun i => ((rest k).take j).getD i 0) 0 j =
        (rest k).take j := by
      apply List.ext_getElem (by rw [bytes_length, hlen])
      intro i hi hi'
      have hget := place_get (a := 0) f.buffer (fun i => ((rest k).take j).getD i 0)
        (hlen ▸ hi')
      simp only [bytes, List.getElem_map, List.getElem_range]
      rw [hget, List.getD_eq_getElem _ _ hi']
    refine ⟨⟨h.fd, h.mode, h.error, h.size, Nat.zero_le _, ?_, ?_, ?_⟩, ?_⟩
    · dsimp only
      omega
    · unfold ahead
      rw [hlen, Int.toNat_natCast, Nat.sub_zero, hnew, hk, List.append_assoc,
        List.take_append_drop]
      exact hall
    · intro he
      exact absurd (h.eof he).2 hrest
    · rw [if_neg (by omega)]
      dsimp only
      omega

theorem fgetc_reading (hand : HandsOut sys fd rest) (h : Reading fd rest contents delivered f k) :
    ((fgetc sys k f).1 = eofValue ∧ delivered = contents ∧
      Reading fd rest contents delivered (fgetc sys k f).2.1 (fgetc sys k f).2.2) ∨
    (∃ b : UInt8, (fgetc sys k f).1 = b.toNat ∧
      Reading fd rest contents (delivered++[b]) (fgetc sys k f).2.1 (fgetc sys k f).2.2) := by
  have get : ∀ (g : File) (v : K), Reading fd rest contents delivered g v →
      g.bufferPos < g.bytesInBuf →
      Reading fd rest contents (delivered++[g.buffer g.bufferPos])
        { g with bufferPos := u32 (g.bufferPos+1) } v := fun g v hg hlt =>
    hg.take (n := 1) (le_refl _) hlt
  unfold fgetc
  split
  · case isTrue hc =>
    have he : f.eof = true := by
      rcases hc with he | he | he
      · exact he
      · rw [h.error] at he
        cases he
      · exact absurd h.mode he
    exact .inl ⟨rfl, h.whole (h.eof he).1 (h.eof he).2, h⟩
  by_cases hb : f.bytesInBuf ≤ f.bufferPos
  · obtain ⟨hr, hc⟩ := refill_reading sys hand h hb
    dsimp only
    rw [if_pos hb]
    split
    · case isTrue hle =>
      rw [if_pos hle] at hc
      exact .inl ⟨rfl, hc, hr⟩
    · case isFalse hle =>
      rw [if_neg hle] at hc
      exact .inr ⟨_, rfl, get _ _ hr hc⟩
  · dsimp only
    rw [if_neg hb, if_neg (show ¬ (1:ℤ) ≤ 0 by decide)]
    exact .inr ⟨_, rfl, get f k h (by omega)⟩

/-- The loop ends, within a budget of two rounds a byte. It delivers the bytes it
counts, and counts fewer than asked for only at the end of the file. -/
theorem freadLoop_reading (hand : HandsOut sys fd rest) {total : ℕ} (ht : total < 4294967296)
    (fuel : ℕ) (dest : Memory) (got : ℕ) (delivered : List UInt8) (f : File) (k : K)
    (h : Reading fd rest contents delivered f k) (hle : got ≤ total)
    (hfuel : 2*(total-got)+(if f.bufferPos < f.bytesInBuf then 0 else 1) < fuel) :
    ∃ dest' n g k', freadLoop sys total fuel dest got f k = some (dest', n, g, k') ∧ got ≤ n ∧
      n ≤ total ∧ (∀ i < got, dest' i = dest i) ∧
      Reading fd rest contents (delivered ++ bytes dest' got (n-got)) g k' ∧
      (n < total → delivered ++ bytes dest' got (n-got) = contents) := by
  induction fuel generalizing dest got delivered f k with
  | zero => omega
  | succ fuel ih =>
    have hs : f.bufferSize = 4096 := h.size
    have hin := h.inBuf
    have havail := sub32_of_le h.pos (by omega)
    have hrest := sub32_of_le hle ht
    by_cases hdone : got < total
    swap
    · refine ⟨dest, got, f, k, ?_, le_refl _, hle, fun _ _ => rfl, ?_, fun hlt => by omega⟩
      · rw [freadLoop, if_neg hdone]
      · simpa using h
    by_cases hb : f.bufferPos < f.bytesInBuf
    · -- bytes stand in the buffer: the round copies at least one
      obtain ⟨c, hc⟩ : ∃ c, min (total-got) (f.bytesInBuf-f.bufferPos) = c := ⟨_, rfl⟩
      have hc1 : 1 ≤ c := by omega
      have hu : u32 (got+c) = got+c := u32_of_lt (by omega)
      obtain ⟨dest', n, g, k', heq, hn, hn', hkeep, hr, hend⟩ := ih
        (place dest got c fun i => f.buffer (f.bufferPos+i)) (got+c) _ _ k
        (h.take hc1 (by omega)) (by omega) (by split <;> split at hfuel <;> omega)
      have hcopied : bytes dest' got c = bytes f.buffer f.bufferPos c := by
        apply bytes_congr
        intro i hi
        rw [hkeep (got+i) (by omega), place_get _ _ hi]
      have hsplit : delivered ++ bytes dest' got (n-got) =
          delivered ++ bytes f.buffer f.bufferPos c ++ bytes dest' (got+c) (n-(got+c)) := by
        rw [show n-got = c+(n-(got+c)) by omega, bytes_add, hcopied, List.append_assoc]
      refine ⟨dest', n, g, k', ?_, by omega, hn', ?_, ?_, ?_⟩
      · rw [freadLoop, if_pos hdone]
        dsimp only
        rw [havail, hrest, if_pos (by omega), hc, hu]
        exact heq
      · intro i hi
        rw [hkeep i (by omega), place_ne _ _ (by omega)]
      · rw [hsplit]
        exact hr
      · rw [hsplit]
        exact hend
    · -- the buffer is empty: the round refills it, or finds the end of the file
      obtain ⟨hr, hc⟩ := refill_reading sys hand h (by omega)
      rw [freadLoop, if_pos hdone]
      dsimp only
      rw [havail, if_neg (by omega)]
      split
      · case isTrue hz =>
        rw [if_pos hz] at hc
        refine ⟨dest, got, _, _, rfl, le_refl _, hle, fun _ _ => rfl, ?_, ?_⟩
        · simpa using hr
        · intro _
          simpa using hc
      · case isFalse hz =>
        rw [if_neg hz] at hc
        apply ih dest got delivered _ _ hr hle
        rw [if_pos hc]
        rw [if_neg hb] at hfuel
        omega

theorem freadBytes_reading (hand : HandsOut sys fd rest)
    (h : Reading fd rest contents delivered f k) (dest : Memory) {size nmemb : ℕ}
    (ht : size*nmemb < 4294967296) :
    ∃ dest' n g k', freadBytes sys k f (some dest) size nmemb = some (some dest', n, g, k') ∧
      Reading fd rest contents (delivered ++ bytes dest' 0 n) g k' ∧
      (n < size*nmemb → delivered ++ bytes dest' 0 n = contents) := by
  unfold freadBytes
  dsimp only
  split
  · case isTrue hz =>
    refine ⟨dest, 0, f, k, rfl, by simpa using h, ?_⟩
    intro hlt
    rcases hz with hz | hz <;> simp [hz] at hlt
  · rw [if_neg (not_not.mpr h.mode), u32_of_lt ht]
    obtain ⟨dest', n, g, k', heq, -, -, -, hr, hend⟩ := freadLoop_reading sys hand ht
      (2*(size*nmemb)+2) dest 0 delivered f k h (Nat.zero_le _) (by split <;> omega)
    refine ⟨dest', n, g, k', ?_, hr, hend⟩
    rw [heq]
    rfl

inductive Input
  | fgetc
  | fread (dest : Memory) (size nmemb : ℕ)

def Input.Fits : Input → Prop
  | .fgetc => True
  | .fread _ size nmemb => size*nmemb < 4294967296

/-- A stream in use: what its calls have delivered, the stream and the kernel. -/
structure Stream (K : Type) where
  delivered : List UInt8
  file : File
  kernel : K

def input (s : Stream K) : Input → Option (Stream K)
  | .fgetc =>
    let r := fgetc sys s.kernel s.file
    some ⟨if r.1 = eofValue then s.delivered else s.delivered++[UInt8.ofNat r.1.toNat],
      r.2.1, r.2.2⟩
  | .fread dest size nmemb =>
    (freadBytes sys s.kernel s.file (some dest) size nmemb).map fun r =>
      ⟨s.delivered ++ bytes (r.1.getD dest) 0 r.2.1, r.2.2.1, r.2.2.2⟩

def inputs (s : Stream K) : List Input → Option (Stream K)
  | [] => some s
  | c::cs => (input sys s c).bind fun s => inputs s cs

/-- The call falls short: `fgetc` returns `EOF`, `fread` copies fewer bytes than asked. -/
def Short (s : Stream K) : Input → Prop
  | .fgetc => (fgetc sys s.kernel s.file).1 = eofValue
  | .fread dest size nmemb => ∃ dest' n g k',
      freadBytes sys s.kernel s.file (some dest) size nmemb = some (dest', n, g, k') ∧
      n < size*nmemb

theorem input_reading (hand : HandsOut sys fd rest) {s : Stream K} {c : Input}
    (h : Reading fd rest contents s.delivered s.file s.kernel) (hc : c.Fits) :
    ∃ t, input sys s c = some t ∧ Reading fd rest contents t.delivered t.file t.kernel ∧
      (Short sys s c → t.delivered = contents) := by
  cases c with
  | fgetc =>
    refine ⟨_, rfl, ?_⟩
    dsimp only
    rcases fgetc_reading sys hand h with ⟨hr, hw, hn⟩ | ⟨b, hr, hn⟩
    · rw [if_pos hr]
      exact ⟨hn, fun _ => hw⟩
    · have hb : (fgetc sys s.kernel s.file).1 ≠ eofValue := by
        rw [hr]
        unfold eofValue
        omega
      rw [if_neg hb, hr, Int.toNat_natCast, UInt8.ofNat_toNat]
      exact ⟨hn, fun he => absurd he hb⟩
  | fread dest size nmemb =>
    obtain ⟨dest', n, g, k', heq, hr, hend⟩ := freadBytes_reading sys hand h dest hc
    refine ⟨⟨s.delivered ++ bytes dest' 0 n, g, k'⟩, ?_, hr, ?_⟩
    · rw [input, heq]
      rfl
    · rintro ⟨dest'', n', g', k'', heq', hlt⟩
      rw [heq] at heq'
      cases heq'
      exact hend hlt

theorem inputs_reading (hand : HandsOut sys fd rest) {s : Stream K} {cs : List Input}
    (h : Reading fd rest contents s.delivered s.file s.kernel) (hc : ∀ c ∈ cs, c.Fits) :
    ∃ t, inputs sys s cs = some t ∧ Reading fd rest contents t.delivered t.file t.kernel := by
  induction cs generalizing s with
  | nil => exact ⟨s, rfl, h⟩
  | cons c cs ih =>
    obtain ⟨t, ht, hr, -⟩ := input_reading sys hand h (hc c List.mem_cons_self)
    obtain ⟨u, hu, hr'⟩ := ih hr fun d hd => hc d (List.mem_cons_of_mem c hd)
    refine ⟨u, ?_, hr'⟩
    rw [inputs, ht]
    exact hu

/-- After any calls the bytes delivered are a prefix of the file, and a call falls short
only when it leaves none of the file undelivered. -/
theorem input_stream_exact {k k' : K} {filename mode : Option (List Char)} {file : Bool}
    {buffer : Option Memory} {f : File}
    (hopen : fopen sys k filename mode file buffer = (some f, k')) (hmode : f.mode = .read)
    {rest : K → List UInt8} (hand : HandsOut sys f.fd rest)
    {calls : List Input} (hcalls : ∀ c ∈ calls, c.Fits) :
    ∃ s, inputs sys ⟨[], f, k'⟩ calls = some s ∧ s.delivered <+: rest k' ∧
      ∀ c : Input, c.Fits → ∃ t, input sys s c = some t ∧ t.delivered <+: rest k' ∧
        (Short sys s c → t.delivered = rest k') := by
  obtain ⟨heof, herror, hsize, hpos, hin⟩ := fopen_file sys hopen
  have hstart : Reading f.fd rest (rest k') [] f k' := by
    refine ⟨rfl, hmode, herror, hsize, by omega, by omega, ?_, ?_⟩
    · rw [ahead_nil (by omega)]
      rfl
    · intro he
      rw [heof] at he
      cases he
  have before : ∀ s : Stream K, Reading f.fd rest (rest k') s.delivered s.file s.kernel →
      s.delivered <+: rest k' := by
    intro s hs
    exact ⟨ahead s.file ++ rest s.kernel, by rw [← List.append_assoc]; exact hs.all⟩
  obtain ⟨s, hs, hr⟩ := inputs_reading sys hand (s := ⟨[], f, k'⟩) hstart hcalls
  refine ⟨s, hs, before s hr, ?_⟩
  intro c hc
  obtain ⟨t, ht, hr', hshort⟩ := input_reading sys hand hr hc
  exact ⟨t, ht, before t hr', hshort⟩

/-- A kernel that hands out two bytes at a time of the file its state holds. -/
def pairKernel : Kernel (List UInt8) where
  fopen := fun k _ _ => (3, k)
  fclose := fun k _ => (0, k)
  fread := fun k _ n => ((min n (min 2 k.length) : ℕ), k.take (min n 2), k.drop (min n 2))
  fwrite := fun k _ _ => (-1, k)

theorem pairKernel_handsOut : HandsOut pairKernel 3 id := by
  intro k n hn
  cases k with
  | nil => simp [pairKernel]
  | cons b k =>
    rw [if_neg (by simp)]
    refine ⟨min n (min 2 (b::k).length), ?_, ?_, ?_, rfl, ?_, ?_⟩
    · simp
      omega
    · exact min_le_left _ _
    · exact (min_le_right _ _).trans (min_le_right _ _)
    · simp only [pairKernel, id_eq]
      rw [← min_assoc, List.take_eq_take_min]
    · simp only [pairKernel, id_eq]
      rw [← min_assoc, List.drop_eq_drop_min]

theorem input_stream_exact_pairs :
    ∃ s, inputs pairKernel ⟨[], ⟨3, .read, false, false, fun _ => 0, bufsiz, 0, 0⟩, [65, 66, 67]⟩
        [.fgetc, .fread (fun _ => 0) 2 4, .fgetc] = some s ∧ s.delivered <+: [65, 66, 67] ∧
      ∀ c : Input, c.Fits → ∃ t, input pairKernel s c = some t ∧ t.delivered <+: [65, 66, 67] ∧
        (Short pairKernel s c → t.delivered = [65, 66, 67]) :=
  input_stream_exact pairKernel
    (show fopen pairKernel [65, 66, 67] (some ['f']) (some ['r']) true (some fun _ => 0) = _
      from rfl) rfl pairKernel_handsOut (by simp [Input.Fits])

end Vlsmc.StdioInput
