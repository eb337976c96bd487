import Vlsmc.CStrings
import Vlsmc.ProgramStart

/-!
# The arguments of a program

`sys_exec` counts the strings of `argv` and `envp` in the memory of the caller, packs them
into one buffer, and lays them out on the stack of the new program, where `_start` and
`__libc_start_main` find them by their position. Reading a string or an array of pointers
ends within the 2³² bytes of memory or not at all.
-/

set_option autoImplicit false

namespace Vlsmc.ExecArguments
open Vlsmc.ByteMemory Vlsmc.Words Vlsmc.CStrings Vlsmc.ProgramStart

def userStackPages : ℕ := 4

/-- No walk through memory is longer. -/
def walkFuel : ℕ := 4294967296

/-- `while (s[len]) len++`. -/
def lengthLoop (m : Memory) (s : ℕ) : ℕ → ℕ → Option ℕ
  | 0, _ => none
  | fuel+1, len => if m (u32 (s+len)) = 0 then some len else lengthLoop m s fuel (len+1)

/-- `while (argv[argc])`: the number of strings and `total_string_size`. -/
def countLoop (m : Memory) (argv : ℕ) : ℕ → ℕ → ℕ → Option (ℕ × ℕ)
  | 0, _, _ => none
  | fuel+1, argc, size =>
    let arg := read32 m (u32 (argv+4*argc))
    if arg = 0 then some (argc, size)
    else (lengthLoop m arg walkFuel 0).bind fun len =>
      countLoop m argv fuel (argc+1) (u32 (size+(len+1)))

def countStrings (m : Memory) (argv size : ℕ) : Option (ℕ × ℕ) :=
  if argv = 0 then some (0, size) else countLoop m argv walkFuel 0 size

/-- One string into `string_buf`, with its terminating zero. -/
def copyString (m : Memory) (arg : ℕ) : ℕ → Memory × ℕ → ℕ → Option (Memory × ℕ)
  | 0, _, _ => none
  | fuel+1, (stringBuf, offset), len =>
    let c := m (u32 (arg+len))
    if c = 0 then some (write8 stringBuf offset 0, u32 (offset+1))
    else copyString m arg fuel (write8 stringBuf offset c, u32 (offset+1)) (len+1)

/-- The strings from number `i` on, as many as the first argument says. -/
def copyStrings (m : Memory) (argv : ℕ) : ℕ → ℕ → Memory × ℕ → Option (Memory × ℕ)
  | 0, _, b => some b
  | n+1, i, b => (copyString m (read32 m (u32 (argv+4*i))) walkFuel b 0).bind
      (copyStrings m argv n (i+1))

/-- `if (argv) for ...`. -/
def copyArray (m : Memory) (array n : ℕ) (b : Memory × ℕ) : Option (Memory × ℕ) :=
  if array = 0 then some b else copyStrings m array n 0 b

/-- `while (*str_offset) str_offset++; str_offset++`. -/
def skipString (m : Memory) : ℕ → ℕ → Option ℕ
  | 0, _ => none
  | fuel+1, strOffset =>
    if m strOffset = 0 then some (u32 (strOffset+1)) else skipString m fuel (u32 (strOffset+1))

/-- The pointers from number `i` on: memory and `str_offset`. -/
def placePointers (array : ℕ) : ℕ → ℕ → Memory × ℕ → Option (Memory × ℕ)
  | 0, _, s => some s
  | n+1, i, (m, strOffset) =>
    let m := write32 m (u32 (array+4*i)) strOffset
    (skipString m walkFuel strOffset).bind fun next => placePointers array n (i+1) (m, next)

/-- `user_esp &= ~3`. -/
def alignWord (esp : ℕ) : ℕ := esp/4*4

/-- The stack of the new program with strings on it, below them the two arrays and `argc`:
`user_esp` and the memory. -/
def layoutStrings (stringBuf : Memory) (argc envc size : ℕ) (m : Memory) : Option (ℕ × Memory) :=
  let stackStrings := alignWord (sub32 userStackTop size)
  let userEnvp := sub32 stackStrings ((envc+1)*4)
  let userArgv := sub32 userEnvp ((argc+1)*4)
  let m := place m stackStrings size stringBuf
  (placePointers userArgv argc 0 (m, stackStrings)).bind fun (m, strOffset) =>
    let m := write32 m (u32 (userArgv+4*argc)) 0
    (placePointers userEnvp envc 0 (m, strOffset)).map fun (m, _) =>
      (userArgv, write32 m (u32 (userEnvp+4*envc)) 0)

/-- The stack without any strings. -/
def layoutEmpty (m : Memory) : ℕ × Memory :=
  let userEnvp := sub32 userStackTop 4
  let userArgv := sub32 userEnvp 4
  (userArgv, write32 (write32 m userEnvp 0) userArgv 0)

def pushArgc (argc : ℕ) (s : ℕ × Memory) : ℕ × Memory :=
  let esp := sub32 s.1 4
  (esp, write32 s.2 esp argc)

/-- What `sys_exec` does with its arguments, from the memory of the caller to the memory of
the new program. `some none` is the return value -1; `kmalloc` gives the block for
`string_buf` with its old contents. -/
def execArguments (caller : Memory) (argv envp : ℕ) (kmalloc : ℕ → Option Memory)
    (space : Memory) : Option (Option (ℕ × Memory)) := do
  let (argc, argSize) ← countStrings caller argv 0
  let (envc, size) ← countStrings caller envp argSize
  if size = 0 then return some (pushArgc argc (layoutEmpty space))
  else match kmalloc size with
    | none => return none
    | some old => do
      let args ← copyArray caller argv argc (old, 0)
      let all ← copyArray caller envp envc args
      let s ← layoutStrings all.1 argc envc size space
      return some (pushArgc argc s)

/-! ## `_start` and `__libc_start_main` -/

/-- `push`: the stack pointer and the memory. -/
def push (s : ℕ × Memory) (v : ℕ) : ℕ × Memory := (sub32 s.1 4, write32 s.2 (sub32 s.1 4) v)

/-- `_start` up to the first instruction of `__libc_start_main`; the last word is the
return address. A push on a page that is not writable stops the program. -/
def start (writable : ℕ → Bool) (main hang : ℕ) (s : ℕ × Memory) : Option (ℕ × Memory) :=
  let ecx := read32 s.2 s.1
  let edx := u32 (s.1+4)
  let esp := s.1/16*16
  [esp, 0, 0, 0, edx, ecx, main, hang].foldlM
    (fun s v => if writable (sub32 s.1 4) then some (push s v) else none) (esp, s.2)

/-- The memory of the program and the variables of the library. -/
structure Libc where
  memory : Memory
  environ : ℕ
  progname : Option ℕ

/-- What `main` is called with. -/
structure MainCall where
  argc : ℕ
  argv : ℕ
  environ : ℕ
  memory : Memory

/-- The functions a program brings along: `init`, which is called if it is given, and those
that `__libc_csu_init` calls. Each is called with the stack pointer of its caller. -/
structure Constructors where
  init : ℕ → ℕ → Libc → Libc
  csuInit : ℕ → Libc → Libc

/-- `__libc_start_main` up to the call of `main`; `progname` is `none` for `""`. -/
def libcStartMain (c : Constructors) (s : ℕ × Memory) : MainCall :=
  let arg n := read32 s.2 (u32 (s.1+4*n))
  let argc := arg 2
  let argv := arg 3
  let progname := if argv ≠ 0 ∧ read32 s.2 argv ≠ 0 then some (read32 s.2 argv) else none
  let l : Libc := ⟨s.2, u32 (argv+4*(argc+1)), progname⟩
  let l := if arg 4 ≠ 0 then c.init (arg 4) s.1 l else l
  let l := c.csuInit s.1 l
  ⟨argc, argv, l.environ, l.memory⟩

/-! ## Collecting the strings -/

/-- An array the caller passes: a null pointer stands for no strings. -/
def Passed (m : Memory) (a : ℕ) (ss : List (List UInt8)) : Prop :=
  a = 0 ∧ ss = [] ∨ a ≠ 0 ∧ PointerArray m a ss

section Collect

variable {m : Memory} {a i size : ℕ} {s : List UInt8} {ss : List (List UInt8)}

theorem lengthLoop_spec {p fuel len : ℕ} (h : CString m p s) (hlen : len ≤ s.length)
    (hfuel : s.length < fuel+len) : lengthLoop m p fuel len = some s.length := by
  have hb := h.below
  induction fuel generalizing len with
  | zero => omega
  | succ fuel ih =>
    rw [lengthLoop, u32_of_lt (by omega)]
    rcases hlen.eq_or_lt with rfl | hlt
    · rw [if_pos (cstring_end h)]
    · have hc := cstring_char h hlt
      rw [if_neg (by rw [hc.1]; exact hc.2)]
      exact ih hlt (by omega)

theorem countLoop_spec {fuel : ℕ} (h : PointerArray m (a+4*i) ss) (hfuel : ss.length < fuel)
    (hsize : size+(packed ss).length < 4294967296) :
    countLoop m a fuel i size = some (i+ss.length, size+(packed ss).length) := by
  induction ss generalizing i size fuel with
  | nil =>
    obtain ⟨fuel, rfl⟩ : ∃ n, fuel = n+1 := ⟨fuel-1, by omega⟩
    have := h.2
    rw [countLoop, u32_of_lt (by omega)]
    exact if_pos h.1
  | cons s ss ih =>
    obtain ⟨fuel, rfl⟩ : ∃ n, fuel = n+1 := ⟨fuel-1, by omega⟩
    have hb := pointerArray_below h
    obtain ⟨hne, hs, hrest⟩ := h
    have hsb := hs.below
    rw [packed_cons, List.length_append, List.length_append, List.length_singleton] at hsize ⊢
    rw [List.length_cons] at hfuel hb ⊢
    rw [countLoop, u32_of_lt (by omega)]
    simp only [if_neg hne]
    rw [lengthLoop_spec hs (Nat.zero_le _) (by unfold walkFuel; omega), Option.bind_some,
      u32_of_lt (by omega), ih (by rwa [show a+4*(i+1) = a+4*i+4 by ring]) (by omega) (by omega)]
    congr 2 <;> omega

theorem countStrings_spec (size : ℕ) (h : Passed m a ss) (hsize : size+(packed ss).length < 4294967296) :
    countStrings m a size = some (ss.length, size+(packed ss).length) := by
  rcases h with ⟨rfl, rfl⟩ | ⟨hne, h⟩
  · rfl
  · have hb := pointerArray_below h
    rw [countStrings, if_neg hne, countLoop_spec h (by unfold walkFuel; omega) hsize, Nat.zero_add]

theorem copyString_spec {p : ℕ} (fuel len offset : ℕ) (b : Memory) (h : CString m p s)
    (hlen : len ≤ s.length) (hfuel : s.length < fuel+len)
    (hoff : offset+(s.length-len)+1 < 4294967296) :
    ∃ b', copyString m p fuel (b, offset) len = some (b', offset+(s.length-len)+1) ∧
      Holds b' offset (s.drop len++[0]) ∧ ∀ k < offset, b' k = b k := by
  have hb := h.below
  induction fuel generalizing len offset b with
  | zero => omega
  | succ fuel ih =>
    rw [copyString]
    simp only [u32_of_lt (show p+len < 4294967296 by omega)]
    rcases hlen.eq_or_lt with rfl | hlt
    · rw [if_pos (cstring_end h), u32_of_lt (by omega)]
      refine ⟨_, by rw [Nat.sub_self, Nat.add_zero], ?_, fun k hk => write8_ne _ _ (by omega)⟩
      rw [List.drop_length, List.nil_append, holds_single]
      exact write8_same _ _ _
    · obtain ⟨hc, hne⟩ := cstring_char h hlt
      rw [hc, if_neg hne, u32_of_lt (by omega)]
      obtain ⟨b', hrun, hheld, hkeep⟩ := ih (len+1) (offset+1) (write8 b offset s[len]) hlt
        (by omega) (by omega)
      refine ⟨b', ?_, ?_, fun k hk => ?_⟩
      · rw [hrun]
        congr 2
        omega
      · rw [List.drop_eq_getElem_cons hlt, List.cons_append, holds_cons]
        exact ⟨(hkeep offset (by omega)).trans (write8_same _ _ _), hheld⟩
      · rw [hkeep k (by omega), write8_ne _ _ (by omega)]

theorem copyStrings_spec (offset : ℕ) (b : Memory) (h : PointerArray m (a+4*i) ss)
    (hoff : offset+(packed ss).length < 4294967296) :
    ∃ b', copyStrings m a ss.length i (b, offset) = some (b', offset+(packed ss).length) ∧
      Holds b' offset (packed ss) ∧ ∀ k < offset, b' k = b k := by
  induction ss generalizing i offset b with
  | nil => exact ⟨b, rfl, holds_nil b offset, fun _ _ => rfl⟩
  | cons s ss ih =>
    have hb := pointerArray_below h
    obtain ⟨-, hs, hrest⟩ := h
    have hsb := hs.below
    rw [packed_cons, List.length_append, List.length_append, List.length_singleton] at hoff
    rw [List.length_cons] at hb
    obtain ⟨b1, hrun1, hheld1, hkeep1⟩ := copyString_spec walkFuel 0 offset b hs
      (Nat.zero_le _) (by unfold walkFuel; omega) (by omega)
    obtain ⟨b2, hrun2, hheld2, hkeep2⟩ := ih (i := i+1) (offset+s.length+1) b1
      (by rwa [show a+4*(i+1) = a+4*i+4 by ring]) (by omega)
    refine ⟨b2, ?_, ?_, fun k hk => ?_⟩
    · rw [List.length_cons, copyStrings, u32_of_lt (by omega), hrun1, Nat.sub_zero, Option.bind_some,
        hrun2, packed_cons, List.length_append, List.length_append, List.length_singleton]
      congr 2
      omega
    · rw [List.drop_zero] at hheld1
      rw [packed_cons, holds_append]
      refine ⟨holds_congr (fun j _ hj => hkeep2 j ?_) hheld1, ?_⟩
      · rw [List.length_append, List.length_singleton] at hj
        omega
      · rw [List.length_append, List.length_singleton]
        exact hheld2
    · rw [hkeep2 k (by omega), hkeep1 k hk]

/-- The strings of one array, after what is in the buffer already. -/
theorem copyArray_spec (offset : ℕ) (b : Memory) (h : Passed m a ss)
    (hoff : offset+(packed ss).length < 4294967296) :
    ∃ b', copyArray m a ss.length (b, offset) = some (b', offset+(packed ss).length) ∧
      Holds b' offset (packed ss) ∧ ∀ k < offset, b' k = b k := by
  rcases h with ⟨rfl, rfl⟩ | ⟨hne, h⟩
  · exact ⟨b, if_pos rfl, holds_nil b offset, fun _ _ => rfl⟩
  · rw [copyArray, if_neg hne]
    exact copyStrings_spec offset b h hoff

end Collect

theorem passed_chars {m : Memory} {a : ℕ} {ss : List (List UInt8)} (h : Passed m a ss) :
    ∀ s ∈ ss, (0 : UInt8) ∉ s := by
  rcases h with ⟨-, rfl⟩ | ⟨-, h⟩
  · simp
  · exact pointerArray_chars h

/-! ## The stack -/

section Layout

variable {m : Memory} {p : ℕ} {ss : List (List UInt8)}

theorem skipString_spec {s : List UInt8} {i : ℕ} (fuel : ℕ) (h : CString m p s) (hi : i ≤ s.length)
    (hfuel : s.length < fuel+i) (hb : p+s.length+1 < 4294967296) :
    skipString m fuel (p+i) = some (p+s.length+1) := by
  induction fuel generalizing i with
  | zero => omega
  | succ fuel ih =>
    rw [skipString]
    rcases hi.eq_or_lt with rfl | hlt
    · rw [if_pos (cstring_end h), u32_of_lt hb]
    · have hc := cstring_char h hlt
      rw [if_neg (by rw [hc.1]; exact hc.2), u32_of_lt (by omega), Nat.add_assoc p i 1]
      exact ih hlt (by omega)

/-- The pointers of one array are placed below the strings. -/
theorem placePointers_spec (array i : ℕ) (hz : ∀ s ∈ ss, (0 : UInt8) ∉ s)
    (hss : Holds m p (packed ss)) (hp : array+4*(i+ss.length) ≤ p)
    (hb : p+(packed ss).length < 4294967296) :
    ∃ m', placePointers array ss.length i (m, p) = some (m', p+(packed ss).length) ∧
      pieces m' (array+4*i) ss = packedPieces p ss ∧
      ∀ k, k < array+4*i ∨ array+4*(i+ss.length) ≤ k → m' k = m k := by
  induction ss generalizing i m p with
  | nil => exact ⟨m, rfl, rfl, fun _ _ => rfl⟩
  | cons s ss ih =>
    rw [packed_cons, List.length_append, List.length_append, List.length_singleton] at hb ⊢
    rw [List.length_cons] at hp ⊢
    rw [packed_cons] at hss
    have hcell : ∀ k, k < array+4*i ∨ array+4*i+4 ≤ k → write32 m (array+4*i) p k = m k :=
      fun k hk => write32_ne m p hk
    have hheld := holds_append.mp (holds_congr (fun j hj _ => hcell j (by omega)) hss)
    have hs : CString (write32 m (array+4*i) p) p s :=
      ⟨hheld.1, hz s List.mem_cons_self, by omega⟩
    rw [List.length_append, List.length_singleton, ← Nat.add_assoc] at hheld
    obtain ⟨m', hrun, hpieces, hkeep⟩ := ih (i+1) (fun t ht => hz t (List.mem_cons_of_mem s ht))
      hheld.2 (by omega) (by omega)
    refine ⟨m', ?_, ?_, fun k hk => ?_⟩
    · have hskip := skipString_spec walkFuel hs (Nat.zero_le _)
        (by unfold walkFuel; omega) (by omega)
      rw [Nat.add_zero] at hskip
      rw [placePointers]
      simp only [u32_of_lt (show array+4*i < 4294967296 by omega)]
      rw [hskip, Option.bind_some, hrun]
      congr 2
      omega
    · rw [pieces, packedPieces, ← Nat.add_assoc, ← hpieces,
        show array+4*(i+1) = array+4*i+4 by ring]
      congr 2
      rw [read32_congr fun k h1 h2 => hkeep k (by omega)]
      exact read32_write32 m _ (by omega)
    · rw [hkeep k (by omega), hcell k (by omega)]

/-- The two arrays and all the strings. -/
def extents (m : Memory) (argv environ : ℕ) (as es : List (List UInt8)) : List (ℕ × ℕ) :=
  (argv, 4*(as.length+1))::(environ, 4*(es.length+1))::(pieces m argv as++pieces m environ es)

/-- The arguments are in place, in the pages of the stack, and nothing overlaps. -/
structure Laid (m : Memory) (argc argv environ : ℕ) (as es : List (List UInt8)) : Prop where
  count : argc = as.length
  args : PointerArray m argv as
  env : PointerArray m environ es
  apart : (extents m argv environ as es).Pairwise Apart
  bottom : userStackTop-4096*userStackPages ≤ argv
  within : ∀ x ∈ extents m argv environ as es, argv ≤ x.1 ∧ x.1+x.2 ≤ userStackTop

/-- The strings, the arrays of pointers and `argc`. -/
def layoutSize (as es : List (List UInt8)) : ℕ :=
  (packed (as++es)).length+4*(es.length+1)+4*(as.length+1)+4

/-- They fit into the pages of the stack. -/
def Fits (as es : List (List UInt8)) : Prop := layoutSize as es ≤ 4096*userStackPages

variable {as es : List (List UInt8)}

/-- Strings packed at `p`, with both arrays below them. -/
theorem laid_packed {argv environ : ℕ} (hza : ∀ s ∈ as, (0 : UInt8) ∉ s)
    (hze : ∀ s ∈ es, (0 : UInt8) ∉ s) (hheld : Holds m p (packed (as++es)))
    (hargv : pieces m argv as = packedPieces p as)
    (henv : pieces m environ es = packedPieces (p+(packed as).length) es)
    (hnull : read32 m (argv+4*as.length) = 0) (hnull' : read32 m (environ+4*es.length) = 0)
    (hbottom : userStackTop-4096*userStackPages ≤ argv) (hae : argv+4*(as.length+1) ≤ environ)
    (hep : environ+4*(es.length+1) ≤ p) (hp : p+(packed (as++es)).length ≤ userStackTop) :
    Laid m as.length argv environ as es := by
  unfold userStackTop at hp
  rw [packed_append, List.length_append] at hp
  have hpieces : pieces m argv as++pieces m environ es = packedPieces p (as++es) := by
    rw [hargv, henv, packedPieces_append]
  have hheld' := hheld
  rw [packed_append, holds_append] at hheld'
  have hin : ∀ x ∈ packedPieces p (as++es), p ≤ x.1 ∧ x.1+x.2 ≤ userStackTop := by
    intro x hx
    have := mem_packedPieces hx
    rw [packed_append, List.length_append] at this
    unfold userStackTop
    omega
  refine ⟨rfl, pointerArray_packed (by omega) (by omega) hza hheld'.1 hargv hnull (by omega),
    pointerArray_packed (by omega) (by omega) hze hheld'.2 henv hnull' (by omega), ?_, hbottom, ?_⟩
  · rw [extents, hpieces]
    refine List.Pairwise.cons (fun x hx => Or.inl ?_)
      (List.Pairwise.cons (fun x hx => Or.inl ?_) (packedPieces_apart p _))
    · rcases List.mem_cons.mp hx with rfl | hx
      · exact hae
      · have := (hin x hx).1
        dsimp only
        omega
    · have := (hin x hx).1
      dsimp only
      omega
  · intro x hx
    rw [extents, hpieces] at hx
    rcases List.mem_cons.mp hx with rfl | hx
    · refine ⟨le_refl _, ?_⟩
      unfold userStackTop
      dsimp only
      omega
    · rcases List.mem_cons.mp hx with rfl | hx
      · refine ⟨by dsimp only; omega, ?_⟩
        unfold userStackTop
        dsimp only
        omega
      · have := hin x hx
        exact ⟨by omega, this.2⟩

/-- Only the memory from `argv` up to the top of the stack matters. -/
theorem laid_congr {m' : Memory} {argc argv environ : ℕ} (h : Laid m argc argv environ as es)
    (hm : ∀ k, argv ≤ k → k < userStackTop → m' k = m k) : Laid m' argc argv environ as es := by
  have hext : ∀ x ∈ extents m argv environ as es, ∀ k, x.1 ≤ k → k < x.1+x.2 → m' k = m k := by
    intro x hx k h1 h2
    have hw := h.within x hx
    exact hm k (by omega) (by omega)
  have hargv := hext (argv, 4*(as.length+1)) (by simp [extents])
  have henv := hext (environ, 4*(es.length+1)) (by simp [extents])
  have hsame : extents m' argv environ as es = extents m argv environ as es := by
    rw [extents, extents, pieces_congr fun j h1 h2 => hargv j h1 (by dsimp only; omega),
      pieces_congr fun j h1 h2 => henv j h1 (by dsimp only; omega)]
  refine ⟨h.count, pointerArray_congr hargv (fun x hx => hext x (by simp [extents, hx])) h.args,
    pointerArray_congr henv (fun x hx => hext x (by simp [extents, hx])) h.env, ?_, h.bottom, ?_⟩
  · rw [hsame]
    exact h.apart
  · rw [hsame]
    exact h.within

/-- The stack with strings on it. -/
theorem layoutStrings_spec {b : Memory} (hza : ∀ s ∈ as, (0 : UInt8) ∉ s)
    (hze : ∀ s ∈ es, (0 : UInt8) ∉ s) (hb : Holds b 0 (packed (as++es))) (hfit : Fits as es)
    (space : Memory) :
    ∃ argv m', layoutStrings b as.length es.length (packed (as++es)).length space =
        some (argv, m') ∧ argv = alignWord (userStackTop-layoutSize as es)+4 ∧
      Laid m' as.length argv (argv+4*(as.length+1)) as es := by
  unfold Fits layoutSize userStackPages at hfit
  have htop : userStackTop = 3221159936 := rfl
  unfold layoutSize
  generalize hsize : (packed (as++es)).length = size at hfit ⊢
  have hsplit : (packed as).length+(packed es).length = size := by
    rw [← hsize, packed_append, List.length_append]
  -- the strings, rounded down to a multiple of four, and the arrays below them
  obtain ⟨p, hp⟩ : ∃ p, alignWord (sub32 userStackTop size) = p := ⟨_, rfl⟩
  have hpb : p+size ≤ userStackTop ∧ userStackTop-4096*4+4+4*(es.length+1)+4*(as.length+1) ≤ p ∧
      p = (userStackTop-size)/4*4 := by
    rw [← hp, alignWord, sub32_of_le (by omega) (by omega)]
    omega
  obtain ⟨environ, henviron⟩ : ∃ e, e+4*(es.length+1) = p := ⟨p-4*(es.length+1), by omega⟩
  obtain ⟨argv, hargv⟩ : ∃ a, a+4*(as.length+1) = environ := ⟨environ-4*(as.length+1), by omega⟩
  have he : sub32 p ((es.length+1)*4) = environ := by
    rw [sub32_of_le (by omega) (by omega)]
    omega
  have ha : sub32 environ ((as.length+1)*4) = argv := by
    rw [sub32_of_le (by omega) (by omega)]
    omega
  have hheld : Holds (place space p size b) p (packed (as++es)) := by
    refine (bytes_congr fun i hi => ?_).trans hb
    rw [Nat.zero_add]
    exact place_get space b (hsize ▸ hi)
  have hheld' := hheld
  rw [packed_append, holds_append] at hheld'
  obtain ⟨m2, hrun2, hargs, hkeep2⟩ := placePointers_spec argv 0 hza hheld'.1
    (by omega) (by omega)
  have hkeep3 : ∀ k, environ ≤ k → write32 m2 (argv+4*as.length) 0 k = place space p size b k := by
    intro k hk
    rw [write32_ne _ _ (by omega), hkeep2 k (by omega)]
  have hheld3 : Holds (write32 m2 (argv+4*as.length) 0) (p+(packed as).length) (packed es) :=
    holds_congr (fun j hj _ => hkeep3 j (by omega)) hheld'.2
  obtain ⟨m4, hrun4, henv, hkeep4⟩ := placePointers_spec environ 0 hze hheld3
    (by omega) (by omega)
  have hkeep5 : ∀ k, k < environ ∨ p ≤ k → write32 m4 (environ+4*es.length) 0 k =
      write32 m2 (argv+4*as.length) 0 k := by
    intro k hk
    rw [write32_ne _ _ (by omega), hkeep4 k (by omega)]
  refine ⟨argv, write32 m4 (environ+4*es.length) 0, ?_, by unfold alignWord; omega, ?_⟩
  · unfold layoutStrings
    simp only [hp, he, ha, hrun2, Option.bind_some, u32_of_lt (show argv+4*as.length < 4294967296 by omega),
      hrun4, Option.map_some, u32_of_lt (show environ+4*es.length < 4294967296 by omega)]
  · rw [hargv]
    refine laid_packed (p := p) hza hze ?_ ?_ ?_ ?_ ?_ (by unfold userStackPages; omega)
      (by omega) (by omega) (by omega)
    · refine holds_congr (fun j hj _ => ?_) hheld
      rw [hkeep5 j (by omega), hkeep3 j (by omega)]
    · rw [← hargs, Nat.mul_zero, Nat.add_zero]
      refine pieces_congr fun j h1 h2 => ?_
      rw [hkeep5 j (by omega), write32_ne _ _ (by omega)]
    · rw [← henv, Nat.mul_zero, Nat.add_zero]
      exact pieces_congr fun j h1 h2 => write32_ne _ _ (by omega)
    · rw [read32_congr fun j h1 h2 => hkeep5 j (by omega)]
      exact read32_write32 _ _ (by decide)
    · exact read32_write32 _ _ (by decide)

theorem layoutEmpty_spec (space : Memory) :
    (layoutEmpty space).1 = alignWord (userStackTop-layoutSize [] [])+4 ∧
      Laid (layoutEmpty space).2 0 (layoutEmpty space).1 ((layoutEmpty space).1+4) [] [] := by
  have henv : sub32 userStackTop 4 = 3221159932 := rfl
  have hargv : sub32 3221159932 4 = 3221159928 := rfl
  unfold layoutEmpty
  simp only [henv, hargv]
  refine ⟨by decide, ?_⟩
  show Laid _ ([] : List (List UInt8)).length _ _ [] []
  have hnone : ∀ s ∈ ([] : List (List UInt8)), (0 : UInt8) ∉ s := by simp
  refine laid_packed (p := 3221159936) hnone hnone (holds_nil _ _) rfl rfl ?_ ?_ (by decide)
    (by decide) (by decide) (by decide)
  · exact read32_write32 _ _ (by decide)
  · rw [List.length_nil, Nat.mul_zero, Nat.add_zero, read32_write32_ne _ _ (by decide)]
    exact read32_write32 _ _ (by decide)

/-- The stack a new program starts with: `argc`, and above it the two arrays. -/
structure Ready (s : ℕ × Memory) (as es : List (List UInt8)) : Prop where
  word : read32 s.2 s.1 = as.length
  pointer : s.1 = alignWord (userStackTop-layoutSize as es)
  laid : Laid s.2 as.length (s.1+4) (s.1+4+4*(as.length+1)) as es

theorem pushArgc_ready {argv : ℕ} (h : argv = alignWord (userStackTop-layoutSize as es)+4)
    (hl : Laid m as.length argv (argv+4*(as.length+1)) as es) :
    Ready (pushArgc as.length (argv, m)) as es := by
  have htop : userStackTop = 3221159936 := rfl
  have hin := hl.within (argv, 4*(as.length+1)) (by simp [extents])
  dsimp only at hin
  generalize halign : alignWord (userStackTop-layoutSize as es) = esp at h
  subst h
  have hesp : sub32 (esp+4) 4 = esp := by
    rw [sub32_of_le (by omega) (by omega)]
    omega
  unfold pushArgc
  simp only [hesp]
  refine ⟨read32_write32 _ _ (by omega), halign.symm, laid_congr hl fun k hk _ => ?_⟩
  exact write32_ne _ _ (by omega)

/-- `sys_exec` reaches the new program with its stack laid out, unless there is no memory
for `string_buf`. -/
theorem execArguments_spec {caller : Memory} {argv envp : ℕ} (ha : Passed caller argv as)
    (he : Passed caller envp es) (hfit : Fits as es) (kmalloc : ℕ → Option Memory)
    (space : Memory) :
    execArguments caller argv envp kmalloc space = some none ∧
        kmalloc (packed (as++es)).length = none ∨
      ∃ s, execArguments caller argv envp kmalloc space = some (some s) ∧ Ready s as es := by
  have hbound := hfit
  unfold Fits layoutSize userStackPages at hbound
  have hsplit : (packed (as++es)).length = (packed as).length+(packed es).length := by
    rw [packed_append, List.length_append]
  have hcount := countStrings_spec 0 ha (by omega)
  have hcount' := countStrings_spec (packed as).length he (by omega)
  rw [Nat.zero_add] at hcount
  unfold execArguments
  simp only [hcount, hcount', Option.bind_eq_bind, Option.bind_some, ← hsplit]
  by_cases hzero : (packed (as++es)).length = 0
  · have hlen := length_le_packed (as++es)
    rw [hzero, List.length_append] at hlen
    obtain rfl : as = [] := List.length_eq_zero_iff.mp (by omega)
    obtain rfl : es = [] := List.length_eq_zero_iff.mp (by omega)
    right
    have hl := layoutEmpty_spec space
    exact ⟨_, if_pos hzero, pushArgc_ready hl.1 hl.2⟩
  · rw [if_neg hzero]
    cases hk : kmalloc (packed (as++es)).length with
    | none => exact Or.inl ⟨rfl, rfl⟩
    | some old =>
      right
      obtain ⟨b1, hrun1, hheld1, -⟩ := copyArray_spec 0 old ha (by omega)
      obtain ⟨b2, hrun2, hheld2, hkeep2⟩ := copyArray_spec (packed as).length b1 he (by omega)
      rw [Nat.zero_add] at hrun1
      have hall : Holds b2 0 (packed (as++es)) := by
        rw [packed_append, holds_append, Nat.zero_add]
        exact ⟨holds_congr (fun j _ hj => hkeep2 j (by omega)) hheld1, hheld2⟩
      obtain ⟨a, m', hlay, hbot, hlaid⟩ := layoutStrings_spec (passed_chars ha) (passed_chars he)
        hall hfit space
      refine ⟨pushArgc as.length (a, m'), ?_, pushArgc_ready hbot hlaid⟩
      simp only [hrun1, Option.bind_some, hrun2, hlay]
      rfl

end Layout

/-! ## The first steps of the program -/

section Start

variable {m : Memory} {esp : ℕ} {as es : List (List UInt8)}

/-- The words pushed one after the other, the last one at the stack pointer. -/
theorem pushes_spec (vs : List ℕ) {s : ℕ × Memory} (h : 4*vs.length ≤ s.1)
    (hb : s.1 < 4294967296) (hv : ∀ v ∈ vs, v < 4294967296) :
    (vs.foldl push s).1+4*vs.length = s.1 ∧
      (∀ i v, vs[i]? = some v → read32 (vs.foldl push s).2 (s.1-4*(i+1)) = v) ∧
      ∀ k, s.1 ≤ k → (vs.foldl push s).2 k = s.2 k := by
  induction vs generalizing s with
  | nil => exact ⟨rfl, fun i v hi => absurd hi (by simp), fun _ _ => rfl⟩
  | cons v vs ih =>
    rw [List.length_cons] at h
    have hsp : (push s v).1 = s.1-4 := sub32_of_le (by omega) hb
    have hmem : (push s v).2 = write32 s.2 (s.1-4) v := by
      rw [push, sub32_of_le (by omega) hb]
    obtain ⟨h1, h2, h3⟩ := ih (s := push s v) (by omega) (by omega)
      fun w hw => hv w (List.mem_cons_of_mem v hw)
    rw [List.foldl_cons, List.length_cons]
    refine ⟨by omega, fun i w hi => ?_, fun k hk => ?_⟩
    · cases i with
      | zero =>
        rw [List.getElem?_cons_zero, Option.some.injEq] at hi
        rw [read32_congr fun j hj _ => h3 j (by omega), hmem, ← hi]
        exact read32_write32 _ _ (hv v List.mem_cons_self)
      | succ i =>
        rw [List.getElem?_cons_succ] at hi
        rw [← h2 i w hi, hsp]
        congr 1
        omega
    · rw [h3 k (by omega), hmem, write32_ne _ _ (by omega)]

/-- Pushing where every word is writable, or not at all. -/
theorem pushes_writable (writable : ℕ → Bool) (vs : List ℕ) {s : ℕ × Memory}
    (h : 4*vs.length ≤ s.1) (hb : s.1 < 4294967296) :
    (∀ t, vs.foldlM (fun s v => if writable (sub32 s.1 4) then some (push s v) else none) s =
        some t → t = vs.foldl push s) ∧
      ((∀ k, s.1-4*vs.length ≤ k → k < s.1 → writable k = true) →
        vs.foldlM (fun s v => if writable (sub32 s.1 4) then some (push s v) else none) s =
          some (vs.foldl push s)) := by
  induction vs generalizing s with
  | nil => exact ⟨fun t ht => (Option.some.inj ht).symm, fun _ => rfl⟩
  | cons v vs ih =>
    rw [List.length_cons] at h ⊢
    have hsp : (push s v).1 = s.1-4 := sub32_of_le (by omega) hb
    have hsub : sub32 s.1 4 = s.1-4 := sub32_of_le (by omega) hb
    obtain ⟨h1, h2⟩ := ih (s := push s v) (by omega) (by omega)
    rw [List.foldlM_cons, List.foldl_cons, hsub]
    constructor
    · intro t ht
      split_ifs at ht
      · exact h1 t ht
      · cases ht
    · intro hall
      rw [if_pos (hall _ (by omega) (by omega))]
      exact h2 fun k hk hk' => hall k (by omega) (by omega)

/-- `__libc_start_main` is called with what `_start` finds at the stack pointer. -/
theorem start_spec (m : Memory) (esp : ℕ) (writable : ℕ → Bool) {main hang : ℕ} (hmain : main < 4294967296)
    (hhang : hang < 4294967296) (h : 48 ≤ esp) (hb : esp+4 < 4294967296) :
    (∀ s, start writable main hang (esp, m) = some s →
      s.1+32 ≤ esp ∧ read32 s.2 (u32 (s.1+4*2)) = read32 m esp ∧
        read32 s.2 (u32 (s.1+4*3)) = esp+4 ∧ read32 s.2 (u32 (s.1+4*4)) = 0 ∧
        ∀ k, esp ≤ k → s.2 k = m k) ∧
    ((∀ k, esp/16*16-32 ≤ k → k < esp → writable k = true) →
      (start writable main hang (esp, m)).isSome = true) := by
  have hread := read32_lt m esp
  have hlen : [esp/16*16, 0, 0, 0, u32 (esp+4), read32 m esp, main, hang].length = 8 := rfl
  have hwords : ∀ v ∈ [esp/16*16, 0, 0, 0, u32 (esp+4), read32 m esp, main, hang],
      v < 4294967296 := by
    rw [u32_of_lt hb]
    simp only [List.mem_cons, List.not_mem_nil, or_false]
    rintro v (rfl | rfl | rfl | rfl | rfl | rfl | rfl | rfl) <;> omega
  obtain ⟨h1, h2, h3⟩ := pushes_spec _ (s := (esp/16*16, m)) (by rw [hlen]; dsimp only; omega)
    (by dsimp only; omega) hwords
  obtain ⟨h4, h5⟩ := pushes_writable writable
    [esp/16*16, 0, 0, 0, u32 (esp+4), read32 m esp, main, hang] (s := (esp/16*16, m))
    (by rw [hlen]; dsimp only; omega) (by dsimp only; omega)
  rw [hlen] at h1 h5
  refine ⟨fun s hs => ?_, fun hall => ?_⟩
  · rw [← h4 s hs] at h1 h2 h3
    have hat : ∀ n, n ≤ 4 → ∀ i, i+n = 7 → u32 (s.1+4*n) = esp/16*16-4*(i+1) := by
      intro n hn i hi
      rw [u32_of_lt (by omega)]
      omega
    refine ⟨by omega, ?_, ?_, ?_, fun k hk => h3 k (by dsimp only; omega)⟩
    · rw [hat 2 (by decide) 5 rfl]
      exact h2 5 _ rfl
    · rw [hat 3 (by decide) 4 rfl]
      exact (h2 4 _ rfl).trans (u32_of_lt hb)
    · rw [hat 4 (by decide) 3 rfl]
      exact h2 3 _ rfl
  · exact Option.isSome_iff_exists.mpr ⟨_, h5 fun k hk hk' => hall k hk (by dsimp only at hk'; omega)⟩

/-- The constructors of the program leave its arguments and `environ` alone. -/
structure LeavesArguments (c : Constructors) : Prop where
  environ : ∀ esp l, (c.csuInit esp l).environ = l.environ
  memory : ∀ esp l k, esp ≤ k → k < userStackTop → (c.csuInit esp l).memory k = l.memory k

/-- `main` is called with the arguments that are on the stack. -/
theorem libcStartMain_spec {c : Constructors} (hc : LeavesArguments c) {s t : ℕ × Memory}
    (hs : Ready s as es) (writable : ℕ → Bool) {main hang : ℕ} (hmain : main < 4294967296)
    (hhang : hang < 4294967296) (hrun : start writable main hang s = some t) :
    Laid (libcStartMain c t).memory (libcStartMain c t).argc (libcStartMain c t).argv
      (libcStartMain c t).environ as es := by
  obtain ⟨esp, m⟩ := s
  have htop : userStackTop = 3221159936 := rfl
  have hpages : userStackPages = 4 := rfl
  have hbot := hs.laid.bottom
  have hin := hs.laid.within (esp+4, 4*(as.length+1)) (by simp [extents])
  dsimp only at hin hbot
  obtain ⟨h1, h2, h3, h4, h5⟩ := (start_spec m esp writable hmain hhang (by omega)
    (by omega)).1 t hrun
  have hword := hs.word
  dsimp only at hword
  have hcall : libcStartMain c t =
      let l := c.csuInit t.1 ⟨t.2, esp+4+4*(as.length+1),
        if esp+4 ≠ 0 ∧ read32 t.2 (esp+4) ≠ 0 then some (read32 t.2 (esp+4)) else none⟩
      ⟨as.length, esp+4, l.environ, l.memory⟩ := by
    unfold libcStartMain
    simp only [h2, h3, h4, hword, u32_of_lt (show esp+4+4*(as.length+1) < 4294967296 by omega)]
    rfl
  rw [hcall]
  dsimp only
  rw [hc.environ]
  refine laid_congr hs.laid fun k hk hk' => ?_
  rw [hc.memory _ _ k (by omega) hk']
  exact h5 k (by omega)

/-- Below the arguments there is room for the eight words that `_start` pushes. -/
theorem start_returns {s : ℕ × Memory} (hs : Ready s as es) {writable : ℕ → Bool}
    (hpages : ∀ k, userStackTop-4096*userStackPages ≤ k → k < userStackTop → writable k = true)
    (hroom : layoutSize as es+32 ≤ 4096*userStackPages) {main hang : ℕ}
    (hmain : main < 4294967296) (hhang : hang < 4294967296) :
    (start writable main hang s).isSome = true := by
  obtain ⟨esp, m⟩ := s
  have htop : userStackTop = 3221159936 := rfl
  have hfour : userStackPages = 4 := rfl
  have hesp : esp = (userStackTop-layoutSize as es)/4*4 := hs.pointer
  refine (start_spec m esp writable hmain hhang (by omega) (by omega)).2
    fun k hk hk' => hpages k (by omega) (by omega)

end Start

/-- The strings `A` and the empty one at 0x2000, and at 0x1000 the array of both. -/
def twoStrings : Memory :=
  write32 (write32 (write8 (fun _ => 0) 0x2000 0x41) 0x1000 0x2000) 0x1004 0x2002

theorem twoStrings_passed : Passed twoStrings 0x1000 [[0x41], []] :=
  Or.inr ⟨by decide, by decide +kernel, ⟨by unfold Holds; decide +kernel, by decide, by decide +kernel⟩,
    by decide +kernel, ⟨by unfold Holds; decide +kernel, by decide, by decide +kernel⟩,
    by decide +kernel, by decide⟩

def noConstructors : Constructors := ⟨fun _ _ l => l, fun _ l => l⟩

end Vlsmc.ExecArguments
