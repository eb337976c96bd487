import Vlsmc.ByteMemory
import Vlsmc.Words

/-!
# Buffered files

The stream functions of the C library, `stdio.cpp`. A stream holds one buffer of
`BUFSIZ` bytes, filled by reads or by writes. The system calls are functions of
the kernel's state; what `SYS_FWRITE` has accepted is written down beside it.
-/

set_option autoImplicit false

namespace Vlsmc.Stdio
open Vlsmc.ByteMemory Vlsmc.Words

def bufsiz : ℕ := 4096

def eofValue : ℤ := -1

inductive Mode
  | read
  | write
  deriving DecidableEq, Repr

/-- `FILE`, without the lock: one thread uses the stream. -/
structure File where
  fd : ℤ
  mode : Mode
  eof : Bool
  error : Bool
  buffer : Memory
  bufferSize : ℕ
  bufferPos : ℕ
  bytesInBuf : ℕ

/-- The system calls on files. `fread` returns its value and the bytes it stored. -/
structure Kernel (K : Type) where
  fopen : K → List Char → Mode → ℤ × K
  fclose : K → ℤ → ℤ × K
  fread : K → ℤ → ℕ → ℤ × List UInt8 × K
  fwrite : K → ℤ → List UInt8 → ℤ × K

/-- The kernel, and the bytes that successful `SYS_FWRITE` calls were given. -/
structure World (K : Type) where
  kernel : K
  accepted : List UInt8

variable {K : Type} (sys : Kernel K)

/-- `SYS_FWRITE` takes all the bytes it is given, or returns no positive value and
takes none. -/
def sysFwrite (w : World K) (fd : ℤ) (data : List UInt8) : ℤ × World K :=
  let r := sys.fwrite w.kernel fd data
  (r.1, ⟨r.2, if r.1 ≤ 0 then w.accepted else w.accepted++data⟩)

/-- `fopen`. `file` says whether the first `malloc` succeeds, `buffer` holds what the
second one returns. -/
def fopen (k : K) (filename mode : Option (List Char)) (file : Bool) (buffer : Option Memory) :
    Option File × K :=
  match filename, mode with
  | some filename, some mode =>
    match (if mode.head? = some 'r' then some Mode.read
        else if mode.head? = some 'w' then some Mode.write else none) with
    | none => (none, k)
    | some modeFlag =>
      let r := sys.fopen k filename modeFlag
      if r.1 = -1 then (none, r.2)
      else if file = false then (none, (sys.fclose r.2 r.1).2)
      else match buffer with
        | none => (none, (sys.fclose r.2 r.1).2)
        | some buffer => (some ⟨r.1, modeFlag, false, false, buffer, bufsiz, 0, 0⟩, r.2)
  | _, _ => (none, k)

theorem fopen_file {f : File} {k k' : K} {filename mode : Option (List Char)} {file : Bool}
    {buffer : Option Memory} (h : fopen sys k filename mode file buffer = (some f, k')) :
    f.eof = false ∧ f.error = false ∧ f.bufferSize = bufsiz ∧ f.bufferPos = 0 ∧
      f.bytesInBuf = 0 := by
  unfold fopen at h
  split at h
  · split at h
    · cases h
    · dsimp only at h
      split at h
      · cases h
      split at h
      · cases h
      split at h
      · cases h
      · cases h
        exact ⟨rfl, rfl, rfl, rfl, rfl⟩
  · cases h

/-- `_fflush_unlocked`. -/
def fflush (w : World K) (f : File) : ℤ × File × World K :=
  if f.mode = .write ∧ 0 < f.bufferPos then
    let r := sysFwrite sys w f.fd (bytes f.buffer 0 f.bufferPos)
    if r.1 ≤ 0 then (eofValue, { f with error := true }, r.2)
    else (0, { f with bufferPos := 0, bytesInBuf := 0 }, r.2)
  else (0, { f with bufferPos := 0, bytesInBuf := 0 }, w)

def fclose (w : World K) (f : File) : ℤ × World K :=
  let r := fflush sys w f
  let closed := sys.fclose r.2.2.kernel f.fd
  (if r.1 = 0 ∧ closed.1 = 0 then 0 else eofValue, { r.2.2 with kernel := closed.2 })

def fputc (w : World K) (f : File) (c : ℤ) : ℤ × File × World K :=
  if f.error = true ∨ f.mode ≠ .write then (eofValue, f, w)
  else
    let r := if f.bufferSize ≤ f.bufferPos then fflush sys w f else (0, f, w)
    if r.1 ≠ 0 then (eofValue, r.2)
    else
      let g := r.2.1
      ((UInt8.ofInt c).toNat, { g with
        buffer := write8 g.buffer g.bufferPos (UInt8.ofInt c)
        bufferPos := u32 (g.bufferPos+1) }, r.2.2)

/-- The loop of `fwrite`: the count of bytes written and the stream, `none` when
`fuel` rounds are not enough. -/
def fwriteLoop (src : Memory) (total : ℕ) : ℕ → ℕ → File → World K → Option (ℕ × File × World K)
  | 0, _, _, _ => none
  | fuel+1, bytesWritten, f, w =>
    if bytesWritten < total then
      let space := sub32 f.bufferSize f.bufferPos
      if 0 < space then
        let toCopy := min (sub32 total bytesWritten) space
        fwriteLoop src total fuel (u32 (bytesWritten+toCopy))
          { f with
            buffer := place f.buffer f.bufferPos toCopy fun i => src (bytesWritten+i)
            bufferPos := u32 (f.bufferPos+toCopy) } w
      else
        let r := fflush sys w f
        if r.1 ≠ 0 then some (bytesWritten, r.2)
        else fwriteLoop src total fuel bytesWritten r.2.1 r.2.2
    else some (bytesWritten, f, w)

/-- `fwrite` up to its last line: `bytes_written` and the stream. -/
def fwriteBytes (w : World K) (f : File) (ptr : Option Memory) (size nmemb : ℕ) :
    Option (ℕ × File × World K) :=
  match ptr with
  | none => some (0, f, w)
  | some src =>
    if size = 0 ∨ nmemb = 0 then some (0, f, w)
    else if f.mode ≠ .write then some (0, f, w)
    else
      let total := u32 (size*nmemb)
      fwriteLoop sys src total (2*total+2) 0 f w

def fwrite (w : World K) (f : File) (ptr : Option Memory) (size nmemb : ℕ) :
    Option (ℕ × File × World K) :=
  (fwriteBytes sys w f ptr size nmemb).map fun r => (r.1/size, r.2)

/-- The refill that `fgetc` and `fread` share: `SYS_FREAD` into the buffer, and `eof`
when it returns no positive value. -/
def refill (k : K) (f : File) : ℤ × File × K :=
  let r := sys.fread k f.fd f.bufferSize
  let g := { f with buffer := place f.buffer 0 r.2.1.length fun i => r.2.1.getD i 0 }
  if r.1 ≤ 0 then (r.1, { g with eof := true }, r.2.2)
  else (r.1, { g with bytesInBuf := r.1.toNat, bufferPos := 0 }, r.2.2)

def fgetc (k : K) (f : File) : ℤ × File × K :=
  if f.eof = true ∨ f.error = true ∨ f.mode ≠ .read then (eofValue, f, k)
  else
    let r := if f.bytesInBuf ≤ f.bufferPos then refill sys k f else (1, f, k)
    if r.1 ≤ 0 then (eofValue, r.2)
    else
      let g := r.2.1
      ((g.buffer g.bufferPos).toNat, { g with bufferPos := u32 (g.bufferPos+1) }, r.2.2)

/-- The loop of `fread`: the destination, the count of bytes read and the stream. -/
def freadLoop (total : ℕ) : ℕ → Memory → ℕ → File → K → Option (Memory × ℕ × File × K)
  | 0, _, _, _, _ => none
  | fuel+1, dest, bytesRead, f, k =>
    if bytesRead < total then
      let available := sub32 f.bytesInBuf f.bufferPos
      if 0 < available then
        let toCopy := min (sub32 total bytesRead) available
        freadLoop total fuel (place dest bytesRead toCopy fun i => f.buffer (f.bufferPos+i))
          (u32 (bytesRead+toCopy)) { f with bufferPos := u32 (f.bufferPos+toCopy) } k
      else
        let r := refill sys k f
        if r.1 ≤ 0 then some (dest, bytesRead, r.2)
        else freadLoop total fuel dest bytesRead r.2.1 r.2.2
    else some (dest, bytesRead, f, k)

/-- `fread` up to its last line: the destination, `bytes_read` and the stream. -/
def freadBytes (k : K) (f : File) (ptr : Option Memory) (size nmemb : ℕ) :
    Option (Option Memory × ℕ × File × K) :=
  match ptr with
  | none => some (none, 0, f, k)
  | some dest =>
    if size = 0 ∨ nmemb = 0 then some (some dest, 0, f, k)
    else if f.mode ≠ .read then some (some dest, 0, f, k)
    else
      let total := u32 (size*nmemb)
      (freadLoop sys total (2*total+2) dest 0 f k).map fun r => (some r.1, r.2)

def fread (k : K) (f : File) (ptr : Option Memory) (size nmemb : ℕ) :
    Option (Option Memory × ℕ × File × K) :=
  (freadBytes sys k f ptr size nmemb).map fun r => (r.1, r.2.1/size, r.2.2)

end Vlsmc.Stdio
