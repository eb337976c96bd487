import Vlsmc.CStrings
import Vlsmc.FormatPrinting

/-!
# Where the two `printf` stop

A format that ends inside of a directive leaves its zero to the default of the `switch`. The
kernel does not step over it there. The C library does, when it has read a part of the directive
in the same round, and goes on behind the format.
-/

set_option autoImplicit false

namespace Vlsmc.FormatEnds
open Vlsmc.ByteMemory Vlsmc.CStrings Vlsmc.FormatPrinting Vlsmc.NumberPrinting Vlsmc.Words

/-- Where in a format one is: in its text, behind a percent sign, or behind a minus sign or a digit
of a directive. -/
inductive Stage
  | text
  | start
  | inside
  deriving DecidableEq

def next : Stage → UInt8 → Stage
  | .text, c => if c = 37 then .start else .text
  | .start, c => if c = 45 ∨ isDigit c then .inside else .text
  | .inside, c => if isDigit c then .inside else .text

/-- The characters that end the directives. -/
def conversions : Stage → List UInt8 → List UInt8
  | _, [] => []
  | st, c::f =>
    if st ≠ .text ∧ next st c = .text then c::conversions .text f else conversions (next st c) f

/-- The format ends behind the minus sign or the width of a directive. -/
def Truncated (f : List UInt8) : Prop := f.foldl next .text = .inside

/-- What a conversion takes of the arguments. -/
inductive Kind
  | word
  | text
  | double

def libcTakes (c : UInt8) : Option Kind :=
  if c = 115 then some .text
  else if c = 102 then some .double
  else if c = 100 ∨ c = 105 ∨ c = 117 ∨ c = 99 ∨ c = 120 ∨ c = 88 ∨ c = 112 then some .word
  else none

def kernelTakes (c : UInt8) : Option Kind :=
  if c = 115 then some .text
  else if c = 100 ∨ c = 120 ∨ c = 88 ∨ c = 117 ∨ c = 99 then some .word
  else none

variable {D : Type}

/-- A text is null or ends with a zero. -/
def Suits (m : Memory) : Kind → Arg D → Prop
  | .word, .word _ => True
  | .text, .word p => p = 0 ∨ ∃ s, CString m p.toNat s
  | .double, .double _ => True
  | _, _ => False

/-- For each conversion that takes an argument there is one that suits. -/
def Matching (m : Memory) (takes : UInt8 → Option Kind) : List UInt8 → List (Arg D) → Prop
  | [], _ => True
  | k::ks, args =>
    match takes k with
    | none => Matching m takes ks args
    | some kind => ∃ a rest, args = a::rest ∧ Suits m kind a ∧ Matching m takes ks rest

/-- The format is read up to its zero at the most, and the call returns. -/
def Safe (run : ℕ → Outcome D) (p e : ℕ) : Prop :=
  ∃ rounds s, run rounds = .ended s ∧ ∀ k ∈ s.reads, p ≤ k ∧ k ≤ e

variable {m : Memory} {p e : ℕ} {s s' : Printing D} {f : List UInt8} {k : UInt8} {rounds : ℕ}

section Stages

theorem digits_end (h : f.dropWhile isDigit = []) :
    f.foldl next .inside = .inside ∧ conversions .inside f = [] := by
  induction f with
  | nil => exact ⟨rfl, rfl⟩
  | cons c f ih =>
    rw [List.dropWhile_cons] at h
    split_ifs at h with hc
    have hstage : next .inside c = .inside := if_pos hc
    obtain ⟨h1, h2⟩ := ih h
    rw [List.foldl_cons, conversions, hstage]
    exact ⟨h1, h2⟩

theorem digits_conversion {rest : List UInt8} (h : f.dropWhile isDigit = k::rest) :
    f.foldl next .inside = rest.foldl next .text ∧
      conversions .inside f = k::conversions .text rest ∧ rest.length < f.length := by
  induction f with
  | nil => cases h
  | cons c f ih =>
    rw [List.dropWhile_cons] at h
    by_cases hc : isDigit c = true
    · rw [if_pos hc] at h
      have hstage : next .inside c = .inside := if_pos hc
      obtain ⟨h1, h2, h3⟩ := ih h
      rw [List.foldl_cons, conversions, hstage]
      exact ⟨h1, h2, by rw [List.length_cons]; omega⟩
    · rw [if_neg hc] at h
      obtain ⟨rfl, rfl⟩ := List.cons.inj h
      have hstage : next .inside c = .text := if_neg hc
      rw [List.foldl_cons, conversions, hstage]
      exact ⟨rfl, rfl, Nat.lt_succ_self _⟩

/-- What is left of a format when the minus sign and the digits of a directive are read. -/
def afterFlags (f : List UInt8) : List UInt8 :=
  (if f.head? = some 45 then f.tail else f).dropWhile isDigit

theorem afterFlags_plain {c : UInt8} (h : c ≠ 45) :
    afterFlags (c::f) = (c::f).dropWhile isDigit :=
  congrArg _ (if_neg fun hc => h (Option.some.inj hc))

theorem start_end (h : afterFlags f = []) (hne : f ≠ []) :
    f.foldl next .start = .inside ∧ conversions .start f = [] := by
  obtain ⟨c, f, rfl⟩ := List.exists_cons_of_ne_nil hne
  have hinside : next .start c = .inside ∧ f.dropWhile isDigit = [] := by
    by_cases h45 : c = 45
    · subst h45
      exact ⟨rfl, h⟩
    · rw [afterFlags_plain h45, List.dropWhile_cons] at h
      split_ifs at h with hc
      exact ⟨if_pos (Or.inr hc), h⟩
  obtain ⟨h1, h2⟩ := digits_end hinside.2
  rw [List.foldl_cons, conversions, hinside.1]
  exact ⟨h1, h2⟩

theorem start_conversion {rest : List UInt8} (h : afterFlags f = k::rest) :
    f.foldl next .start = rest.foldl next .text ∧
      conversions .start f = k::conversions .text rest ∧ rest.length < f.length := by
  cases f with
  | nil => cases h
  | cons c f =>
    by_cases h45 : c = 45
    · subst h45
      obtain ⟨h1, h2, h3⟩ := digits_conversion (f := f) h
      exact ⟨h1, h2, by rw [List.length_cons]; omega⟩
    · rw [afterFlags_plain h45, List.dropWhile_cons] at h
      by_cases hc : isDigit c = true
      · rw [if_pos hc] at h
        have hstage : next .start c = .inside := if_pos (Or.inr hc)
        obtain ⟨h1, h2, h3⟩ := digits_conversion h
        rw [List.foldl_cons, conversions, hstage]
        exact ⟨h1, h2, by rw [List.length_cons]; omega⟩
      · rw [if_neg hc] at h
        obtain ⟨rfl, rfl⟩ := List.cons.inj h
        have hstage : next .start c = .text := if_neg (not_or.mpr ⟨h45, hc⟩)
        rw [List.foldl_cons, conversions, hstage]
        exact ⟨rfl, rfl, Nat.lt_succ_self _⟩

end Stages

section Pointers

/-- The pointer is at a rest of the format, whose zero is at `e`, and nothing outside was read. -/
structure At (m : Memory) (p e : ℕ) (s : Printing D) (f : List UInt8) : Prop where
  string : CString m s.format f
  start : p ≤ s.format
  stop : s.format+f.length = e
  reads : ∀ k ∈ s.reads, p ≤ k ∧ k ≤ e

theorem At.peek (h : At m p e s f) : At m p e (s.peek m).2 f := by
  refine ⟨h.string, h.start, h.stop, fun k hk => ?_⟩
  rcases List.mem_cons.mp hk with rfl | hk
  · have hstart := h.start
    have hstop := h.stop
    exact ⟨hstart, by omega⟩
  · exact h.reads k hk

theorem At.zero (h : At m p e s []) : m s.format = 0 := cstring_nil h.string

theorem At.char (h : At m p e s (k::f)) : m s.format = k ∧ k ≠ 0 := by
  obtain ⟨hk, hne, -⟩ := cstring_cons h.string
  exact ⟨hk, hne⟩

theorem At.advance (h : At m p e s (k::f)) : At m p e s.advance f := by
  obtain ⟨-, -, hstring⟩ := cstring_cons h.string
  have hbelow := hstring.below
  have hstart := h.start
  have hstop := h.stop
  rw [List.length_cons] at hstop
  have hformat : s.advance.format = s.format+1 := u32_of_lt (by omega)
  refine ⟨?_, ?_, ?_, h.reads⟩
  · rwa [hformat]
  · omega
  · omega

/-- Behind the zero. -/
theorem At.beyond (h : At m p e s []) : s.advance.format = u32 (e+1) := by
  have hstop : s.format = e := h.stop
  unfold Printing.advance
  rw [hstop]

theorem widthLoop_at {width : ℤ} (rounds : ℕ) (h : At m p e s f) {w : ℤ}
    (hw : widthLoop m rounds width s = some (w, s')) :
    At m p e s' (f.dropWhile isDigit) ∧ s'.args = s.args := by
  induction rounds generalizing s f width with
  | zero => cases hw
  | succ rounds ih =>
    rw [widthLoop] at hw
    dsimp only [Printing.peek] at hw
    cases f with
    | nil =>
      rw [h.zero, if_neg (by decide)] at hw
      obtain ⟨-, rfl⟩ := Prod.mk.inj (Option.some.inj hw)
      exact ⟨h.peek, rfl⟩
    | cons c f =>
      rw [h.char.1] at hw
      rw [List.dropWhile_cons]
      split_ifs at hw ⊢ with hc
      · obtain ⟨hat, hargs⟩ := ih h.peek.advance hw
        exact ⟨hat, hargs⟩
      · obtain ⟨-, rfl⟩ := Prod.mk.inj (Option.some.inj hw)
        exact ⟨h.peek, rfl⟩

theorem widthLoop_returns (width : ℤ) (rounds : ℕ) (h : At m p e s f) (hr : f.length < rounds) :
    ∃ r, widthLoop m rounds width s = some r := by
  induction rounds generalizing s f width with
  | zero => omega
  | succ rounds ih =>
    rw [widthLoop]
    dsimp only [Printing.peek]
    cases f with
    | nil =>
      rw [h.zero, if_neg (by decide)]
      exact ⟨_, rfl⟩
    | cons c f =>
      split_ifs
      · exact ih _ h.peek.advance (by simpa using hr)
      · exact ⟨_, rfl⟩

theorem At.skip (h : At m p e s f) {c : UInt8} (hc : c ≠ 0) :
    At m p e (s.skip m c).2 (if f.head? = some c then f.tail else f) ∧
      (s.skip m c).2.args = s.args := by
  unfold Printing.skip
  dsimp only [Printing.peek]
  cases f with
  | nil =>
    rw [h.zero, if_neg hc.symm]
    exact ⟨h.peek, rfl⟩
  | cons k f =>
    rw [h.char.1, List.head?_cons]
    by_cases hk : k = c
    · rw [if_pos hk, if_pos (congrArg some hk)]
      exact ⟨h.peek.advance, rfl⟩
    · rw [if_neg hk, if_neg fun heq => hk (Option.some.inj heq)]
      exact ⟨h.peek, rfl⟩

/-- A zero is stepped over like the digits behind it. -/
theorem digits_zero (f : List UInt8) :
    (if f.head? = some 48 then f.tail else f).dropWhile isDigit = f.dropWhile isDigit := by
  split_ifs with h
  · obtain ⟨rest, rfl⟩ := List.head?_eq_some_iff.mp h
    rw [List.dropWhile_cons, if_pos (show isDigit 48 = true by decide)]
    rfl
  · rfl

/-- The flags and the width are read up to the conversion. -/
theorem parse_at {spec : Spec} (h : At m p e s f) (hp : parse m rounds s = some (spec, s')) :
    At m p e s' (afterFlags f) ∧ s'.args = s.args := by
  obtain ⟨hminus, hargs1⟩ := h.skip (c := 45) (by decide)
  obtain ⟨hzero, hargs2⟩ := hminus.skip (c := 48) (by decide)
  obtain ⟨⟨width, s''⟩, hwidth, heq⟩ := Option.map_eq_some_iff.mp hp
  obtain ⟨-, rfl⟩ := Prod.mk.inj heq
  obtain ⟨hat, hargs3⟩ := widthLoop_at rounds hzero hwidth
  rw [digits_zero] at hat
  exact ⟨hat, hargs3.trans (hargs2.trans hargs1)⟩

theorem tail_length (c : UInt8) (f : List UInt8) :
    (if f.head? = some c then f.tail else f).length ≤ f.length := by
  split_ifs
  · rw [List.length_tail]
    omega
  · exact le_rfl

variable (rounds) in
theorem parse_returns (h : At m p e s f) (hr : f.length < rounds) :
    ∃ spec s', parse m rounds s = some (spec, s') := by
  have hminus := (h.skip (c := 45) (by decide)).1
  have hzero := (hminus.skip (c := 48) (by decide)).1
  have hlen := tail_length 45 f
  have hlen' := tail_length 48 (if f.head? = some 45 then f.tail else f)
  obtain ⟨⟨width, s''⟩, hwidth⟩ := widthLoop_returns 0 rounds hzero (by omega)
  exact ⟨_, s'', Option.map_eq_some_iff.mpr ⟨_, hwidth, rfl⟩⟩

end Pointers

section Reads

/-- What was read stays among the reads. -/
theorem parse_reads {spec : Spec} (hp : parse m rounds s = some (spec, s')) :
    s.reads <:+ s'.reads := by
  have hskip : ∀ (s : Printing D) (c : UInt8), s.reads <:+ (s.skip m c).2.reads := by
    intro s c
    unfold Printing.skip
    dsimp only [Printing.peek]
    split_ifs <;> exact List.suffix_cons _ _
  have hwidth : ∀ (rounds : ℕ) (width : ℤ) (s : Printing D) (w : ℤ) (s' : Printing D),
      widthLoop m rounds width s = some (w, s') → s.reads <:+ s'.reads := by
    intro rounds
    induction rounds with
    | zero => intro _ _ _ _ h; cases h
    | succ rounds ih =>
      intro width s w s' h
      rw [widthLoop] at h
      dsimp only [Printing.peek] at h
      split_ifs at h
      · exact (List.suffix_cons _ _).trans (ih _ _ _ _ h)
      · obtain ⟨-, rfl⟩ := Prod.mk.inj (Option.some.inj h)
        exact List.suffix_cons _ _
  obtain ⟨⟨width, s''⟩, hloop, heq⟩ := Option.map_eq_some_iff.mp hp
  obtain ⟨-, rfl⟩ := Prod.mk.inj heq
  exact (hskip _ _).trans ((hskip _ _).trans (hwidth _ _ _ _ _ hloop))

variable {ops : Doubles D}

theorem libc_directive_reads (h : Libc.directive ops m rounds s = some s') :
    s.reads <:+ s'.reads := by
  obtain ⟨⟨spec, s1⟩, hp, h⟩ := Option.bind_eq_some_iff.mp h
  obtain ⟨⟨out, args, n⟩, -, rfl⟩ := Option.map_eq_some_iff.mp h
  exact (parse_reads hp).trans (List.suffix_cons _ _)

theorem libc_loop_reads {fuel : ℕ} {inFormat : Bool}
    (h : Libc.loop ops m rounds fuel inFormat s = .ended s') : s.format ∈ s'.reads ∧
      s.reads <:+ s'.reads := by
  induction fuel generalizing inFormat s with
  | zero => cases h
  | succ fuel ih =>
    rw [Libc.loop] at h
    dsimp only [Printing.peek] at h
    have hnext : ∀ {t : Printing D} {b : Bool}, Libc.loop ops m rounds fuel b t = .ended s' →
        (s.format::s.reads) <:+ t.reads → s.format ∈ s'.reads ∧ s.reads <:+ s'.reads :=
      fun hloop hsuffix => by
        have hall := hsuffix.trans (ih hloop).2
        exact ⟨hall.subset List.mem_cons_self, (List.suffix_cons _ _).trans hall⟩
    split_ifs at h
    · cases h
      exact ⟨List.mem_cons_self, List.suffix_cons _ _⟩
    · split at h
      · cases h
      · next t hd => exact hnext h (libc_directive_reads hd)
    · exact hnext h List.suffix_rfl
    · exact hnext h List.suffix_rfl

end Reads

section Conversions

variable {ops : Doubles D} {spec : Spec} {args : List (Arg D)} {ks : List UInt8}

theorem chars_returns {q : ℕ} {t : List UInt8} (h : CString m q t) (hr : t.length < rounds) :
    chars m rounds q = some t := by
  induction rounds generalizing q t with
  | zero => omega
  | succ rounds ih =>
    rw [chars]
    cases t with
    | nil => exact if_pos (cstring_nil h)
    | cons c t =>
      obtain ⟨hc, hne, ht⟩ := cstring_cons h
      have hbelow := ht.below
      rw [hc, if_neg hne, u32_of_lt (by omega), ih ht (by simpa using hr)]
      rfl

variable (spec) in
theorem paddedText_returns {w : UInt32} (h : Suits (D := D) m .text (.word w))
    (hr : 4294967296 ≤ rounds) : ∃ out, paddedText m rounds w.toNat spec = some out := by
  have htext : ∃ t, textAt m rounds w.toNat = some t := by
    unfold textAt
    rcases h with rfl | ⟨t, ht⟩
    · exact ⟨_, if_pos rfl⟩
    · have hbelow := ht.below
      rw [chars_returns ht (by omega)]
      split_ifs
      · exact ⟨_, rfl⟩
      · exact ⟨_, rfl⟩
  obtain ⟨t, ht⟩ := htext
  unfold paddedText
  rw [ht]
  exact ⟨_, rfl⟩

theorem uintCore_returns (letter : UInt8) {base n : ℕ} (h2 : 2 ≤ base) (hn : n < 4294967296)
    (isSigned isNegative leftJustify : Bool) (width : ℤ) (padChar : UInt8) :
    ∃ out, uintCore letter n base isSigned isNegative width padChar leftJustify = some out := by
  unfold uintCore
  rw [buffer_spec letter h2 hn]
  exact ⟨_, rfl⟩

theorem toUInt32_lt (z : ℤ) : toUInt32 z < 4294967296 := by
  unfold toUInt32
  omega

theorem printInt_returns (v width : ℤ) (padChar : UInt8) (leftJustify : Bool) :
    (∃ out, Libc.printInt v width padChar leftJustify = some out) ∧
      ∃ out, Kernel.printInt v width padChar leftJustify = some out := by
  have hlt : (if decide (v < 0) then toUInt32 (i32 (-v)) else toUInt32 v) < 4294967296 := by
    split_ifs <;> exact toUInt32_lt _
  exact ⟨uintCore_returns _ (by decide) hlt _ _ _ _ _, uintCore_returns _ (by decide) hlt _ _ _ _ _⟩

theorem printFloat_returns (ops : Doubles D) (d : D) (precision : ℤ) :
    ∃ out, Libc.printFloat ops d precision = some out := by
  have hdigits : ∀ n : UInt32, ∃ buf, (if n = 0 then some [48] else digitLoop 97 10 11 n.toNat) =
      some buf := by
    intro n
    have hlt := n.toNat_lt
    rw [digitLoop_spec 97 (by decide) 11 n.toNat (by omega)]
    split_ifs
    · exact ⟨_, rfl⟩
    · exact ⟨_, rfl⟩
  unfold Libc.printFloat
  dsimp only
  obtain ⟨buf, hbuf⟩ := hdigits (ops.toUInt
    (if ops.isNegative d = true then ([45], ops.neg d) else (([] : List UInt8), d)).2)
  rw [hbuf]
  exact ⟨_, rfl⟩

/-- A conversion of a word, with what it makes of the characters and of the arguments left. -/
theorem word_taken {β : Type} {takes : UInt8 → Option Kind} {c : Option β}
    (print : ℕ → Option (List UInt8)) (result : List UInt8 → List (Arg D) → β)
    (h : Matching m takes (k::ks) args) (hk : takes k = some .word)
    (hc : c = (vaWord args).bind fun r => (print r.1).bind fun out => some (result out r.2))
    (hp : ∀ w < 4294967296, ∃ out, print w = some out) :
    ∃ out rest, c = some (result out rest) ∧ Matching m takes ks rest := by
  rw [Matching, hk] at h
  obtain ⟨a, rest, rfl, ha, hrest⟩ := h
  cases a with
  | word w =>
    obtain ⟨out, hout⟩ := hp w.toNat w.toNat_lt
    refine ⟨out, rest, ?_, hrest⟩
    rw [hc, vaWord, Option.bind_some, hout, Option.bind_some]
  | double d => exact ha.elim

theorem text_taken {β : Type} {takes : UInt8 → Option Kind} {c : Option β} (spec : Spec)
    (result : List UInt8 → List (Arg D) → β) (h : Matching m takes (k::ks) args)
    (hk : takes k = some .text)
    (hc : c = (vaWord args).bind fun r => (paddedText m rounds r.1 spec).bind fun out =>
      some (result out r.2)) (hr : 4294967296 ≤ rounds) :
    ∃ out rest, c = some (result out rest) ∧ Matching m takes ks rest := by
  rw [Matching, hk] at h
  obtain ⟨a, rest, rfl, ha, hrest⟩ := h
  cases a with
  | word w =>
    obtain ⟨out, hout⟩ := paddedText_returns spec ha hr
    refine ⟨out, rest, ?_, hrest⟩
    rw [hc, vaWord, Option.bind_some, hout, Option.bind_some]
  | double d => exact ha.elim

/-- The C library converts each argument that suits. -/
theorem libc_conversion (ops : Doubles D) (spec : Spec) (h : Matching m libcTakes (k::ks) args)
    (hr : 4294967296 ≤ rounds) :
    ∃ out rest n, Libc.conversion ops m rounds spec k args = some (out, rest, n) ∧
      Matching m libcTakes ks rest := by
  by_cases hs : k = 115
  · subst hs
    obtain ⟨out, rest, hc, hrest⟩ := text_taken spec (fun out rest => (out, rest, (out.length:ℤ))) h
      rfl rfl hr
    exact ⟨out, rest, _, hc, hrest⟩
  by_cases hf : k = 102
  · subst hf
    change ∃ a rest, args = a::rest ∧ _ at h
    obtain ⟨a, rest, rfl, ha, hrest⟩ := h
    cases a with
    | word w => exact ha.elim
    | double d =>
      obtain ⟨out, hout⟩ := printFloat_returns ops d (if 0 < spec.width then spec.width else 6)
      refine ⟨out, rest, 0, ?_, hrest⟩
      change (Libc.printFloat ops d (if 0 < spec.width then spec.width else 6)).bind _ = _
      rw [hout]
      rfl
  have hint := fun w : ℕ => (printInt_returns (toInt32 w) spec.width spec.padChar
    spec.leftJustify).1
  have hcore := fun (letter : UInt8) (base : ℕ) (h2 : 2 ≤ base) (w : ℕ) (hw : w < 4294967296) =>
    uintCore_returns letter h2 hw false false spec.leftJustify spec.width spec.padChar
  by_cases hw : k = 100 ∨ k = 105 ∨ k = 117 ∨ k = 99 ∨ k = 120 ∨ k = 88 ∨ k = 112
  · rcases hw with rfl | rfl | rfl | rfl | rfl | rfl | rfl
    · obtain ⟨out, rest, hc, hrest⟩ := word_taken _ (fun out rest => (out, rest, (0:ℤ))) h rfl rfl
        fun w _ => hint w
      exact ⟨out, rest, 0, hc, hrest⟩
    · obtain ⟨out, rest, hc, hrest⟩ := word_taken _ (fun out rest => (out, rest, (0:ℤ))) h rfl rfl
        fun w _ => hint w
      exact ⟨out, rest, 0, hc, hrest⟩
    · obtain ⟨out, rest, hc, hrest⟩ := word_taken _ (fun out rest => (out, rest, (0:ℤ))) h rfl rfl
        (hcore 97 10 (by decide))
      exact ⟨out, rest, 0, hc, hrest⟩
    · obtain ⟨out, rest, hc, hrest⟩ := word_taken (fun w => some [UInt8.ofNat w])
        (fun out rest => (out, rest, (1:ℤ))) h rfl rfl fun w _ => ⟨_, rfl⟩
      exact ⟨out, rest, 1, hc, hrest⟩
    · obtain ⟨out, rest, hc, hrest⟩ := word_taken _ (fun out rest => (out, rest, (0:ℤ))) h rfl rfl
        (hcore 97 16 (by decide))
      exact ⟨out, rest, 0, hc, hrest⟩
    · obtain ⟨out, rest, hc, hrest⟩ := word_taken _ (fun out rest => (out, rest, (0:ℤ))) h rfl rfl
        (hcore 65 16 (by decide))
      exact ⟨out, rest, 0, hc, hrest⟩
    · obtain ⟨out, rest, hc, hrest⟩ := word_taken (fun w => some (Libc.printPtr w))
        (fun out rest => (out, rest, (0:ℤ))) h rfl rfl fun w _ => ⟨_, rfl⟩
      exact ⟨out, rest, 0, hc, hrest⟩
  by_cases hpercent : k = 37
  · subst hpercent
    exact ⟨[37], args, 1, rfl, h⟩
  have hnone : libcTakes k = none := by
    unfold libcTakes
    rw [if_neg hs, if_neg hf, if_neg hw]
  rw [Matching, hnone] at h
  refine ⟨37::(if k ≠ 0 then [k] else []), args, 2, ?_, h⟩
  simp only [not_or] at hw
  unfold Libc.conversion
  rw [if_neg hs, if_neg (not_or.mpr ⟨hw.1, hw.2.1⟩), if_neg hw.2.2.1, if_neg hw.2.2.2.1,
    if_neg hw.2.2.2.2.1, if_neg hw.2.2.2.2.2.1, if_neg hw.2.2.2.2.2.2, if_neg hpercent, if_neg hf]

theorem kernel_conversion (spec : Spec) (h : Matching m kernelTakes (k::ks) args)
    (hr : 4294967296 ≤ rounds) :
    ∃ out rest, Kernel.conversion m rounds spec k args = some (out, rest) ∧
      Matching m kernelTakes ks rest := by
  by_cases hs : k = 115
  · subst hs
    exact text_taken spec Prod.mk h rfl rfl hr
  have hcore := fun (base : ℕ) (h2 : 2 ≤ base) (w : ℕ) (hw : w < 4294967296) =>
    uintCore_returns 65 h2 hw false false spec.leftJustify spec.width spec.padChar
  by_cases hw : k = 100 ∨ k = 120 ∨ k = 88 ∨ k = 117 ∨ k = 99
  · rcases hw with rfl | rfl | rfl | rfl | rfl
    · exact word_taken _ Prod.mk h rfl rfl fun w _ =>
        (printInt_returns (toInt32 w) spec.width spec.padChar spec.leftJustify).2
    · exact word_taken _ Prod.mk h rfl rfl (hcore 16 (by decide))
    · exact word_taken _ Prod.mk h rfl rfl (hcore 16 (by decide))
    · exact word_taken _ Prod.mk h rfl rfl (hcore 10 (by decide))
    · exact word_taken (fun w => some [UInt8.ofNat w]) Prod.mk h rfl rfl fun w _ => ⟨_, rfl⟩
  by_cases hpercent : k = 37
  · subst hpercent
    exact ⟨[37], args, rfl, h⟩
  have hnone : kernelTakes k = none := by
    unfold kernelTakes
    rw [if_neg hs, if_neg hw]
  rw [Matching, hnone] at h
  refine ⟨37::(if k ≠ 0 then [k] else []), args, ?_, h⟩
  simp only [not_or] at hw
  unfold Kernel.conversion
  rw [if_neg hw.1, if_neg (not_or.mpr ⟨hw.2.1, hw.2.2.1⟩), if_neg hw.2.2.2.1, if_neg hs,
    if_neg hw.2.2.2.2, if_neg hpercent]

end Conversions

section Directives

variable {ops : Doubles D} {takes : UInt8 → Option Kind}

/-- Characters that are put and arguments that are taken leave the pointer where it is. -/
theorem At.taken (h : At m p e s f) (args : List (Arg D)) (out : List UInt8) (n : ℤ) :
    At m p e ({ s with args := args }.put out n) f :=
  ⟨h.string, h.start, h.stop, h.reads⟩

theorem libc_directive_at (h : At m p e s f) (hd : Libc.directive ops m rounds s = some s') :
    At m p e s' (afterFlags f) := by
  obtain ⟨⟨spec, s1⟩, hp, hd⟩ := Option.bind_eq_some_iff.mp hd
  obtain ⟨⟨out, args, n⟩, -, rfl⟩ := Option.map_eq_some_iff.mp hd
  exact (parse_at h hp).1.peek.taken args out n

theorem kernel_directive_at (h : At m p e s f) (hd : Kernel.directive m rounds s = some s') :
    At m p e s' (afterFlags f) := by
  obtain ⟨⟨spec, s1⟩, hp, hd⟩ := Option.bind_eq_some_iff.mp hd
  obtain ⟨⟨out, args⟩, -, rfl⟩ := Option.map_eq_some_iff.mp hd
  exact (parse_at h hp).1.peek.taken args out 0

/-- At the end of a directive stands its conversion, or the zero, which takes nothing. -/
theorem conversion_matching (hzero : takes 0 = none) (h : At m p e s (afterFlags f))
    (hm : Matching m takes (conversions .start f) s.args) :
    ∃ ks, Matching m takes (m s.format::ks) s.args ∧
      ∀ k rest, afterFlags f = k::rest → ks = conversions .text rest := by
  cases hf : afterFlags f with
  | nil =>
    rw [hf] at h
    refine ⟨[], ?_, fun k rest hk => by cases hk⟩
    rw [h.zero, Matching, hzero]
    trivial
  | cons k rest =>
    rw [hf] at h
    rw [(start_conversion hf).2.1] at hm
    refine ⟨conversions .text rest, by rwa [h.char.1], fun k' rest' hk => ?_⟩
    rw [(List.cons.inj hk).2]

theorem libc_directive_returns (ops : Doubles D) (h : At m p e s f)
    (hm : Matching m libcTakes (conversions .start f) s.args) (hr : 4294967296 ≤ rounds) :
    ∃ s', Libc.directive ops m rounds s = some s' ∧
      ∀ k rest, afterFlags f = k::rest → Matching m libcTakes (conversions .text rest) s'.args := by
  have hbelow := h.string.below
  obtain ⟨spec, s1, hp⟩ := parse_returns rounds h (by omega)
  obtain ⟨hat, hargs⟩ := parse_at h hp
  rw [← hargs] at hm
  obtain ⟨ks, hks, hrest⟩ := conversion_matching rfl hat hm
  obtain ⟨out, args, n, hc, hmatch⟩ := libc_conversion ops spec hks hr
  refine ⟨{ (s1.peek m).2 with args := args }.put out n, ?_, fun k rest hk => hrest k rest hk ▸ hmatch⟩
  unfold Libc.directive
  rw [hp, Option.bind_some]
  dsimp only [Printing.peek]
  rw [hc, Option.map_some]

theorem kernel_directive_returns (h : At m p e s f)
    (hm : Matching m kernelTakes (conversions .start f) s.args) (hr : 4294967296 ≤ rounds) :
    ∃ s', Kernel.directive m rounds s = some s' ∧
      ∀ k rest, afterFlags f = k::rest →
        Matching m kernelTakes (conversions .text rest) s'.args := by
  have hbelow := h.string.below
  obtain ⟨spec, s1, hp⟩ := parse_returns rounds h (by omega)
  obtain ⟨hat, hargs⟩ := parse_at h hp
  rw [← hargs] at hm
  obtain ⟨ks, hks, hrest⟩ := conversion_matching rfl hat hm
  obtain ⟨out, args, hc, hmatch⟩ := kernel_conversion spec hks hr
  refine ⟨{ (s1.peek m).2 with args := args }.put out 0, ?_, fun k rest hk => hrest k rest hk ▸ hmatch⟩
  unfold Kernel.directive
  rw [hp, Option.bind_some]
  dsimp only [Printing.peek]
  rw [hc, Option.map_some]

end Directives

section Loops

variable {ops : Doubles D}

/-- The stage that `in_format` stands for. -/
def stageOf (inFormat : Bool) : Stage := if inFormat then .start else .text

/-- The C library returns if the format does not end inside of a directive. -/
theorem libc_loop_ends (ops : Doubles D) (fuel : ℕ) (inFormat : Bool) (hfuel : f.length < fuel)
    (hr : 4294967296 ≤ rounds) (h : At m p e s f)
    (hm : Matching m libcTakes (conversions (stageOf inFormat) f) s.args)
    (hend : f.foldl next (stageOf inFormat) ≠ .inside) :
    ∃ s', Libc.loop ops m rounds fuel inFormat s = .ended s' ∧
      ∀ k ∈ s'.reads, p ≤ k ∧ k ≤ e := by
  induction fuel generalizing inFormat s f with
  | zero => omega
  | succ fuel ih =>
    rw [Libc.loop]
    dsimp only [Printing.peek]
    cases f with
    | nil => exact ⟨_, if_pos h.zero, h.peek.reads⟩
    | cons c f =>
      rw [h.char.1, if_neg h.char.2]
      rw [List.length_cons] at hfuel
      cases inFormat with
      | true =>
        obtain ⟨s1, hd, hmatch⟩ := libc_directive_returns ops h.peek hm hr
        have hat := libc_directive_at h.peek hd
        rw [if_pos rfl]
        dsimp only [Printing.peek] at hd
        rw [hd]
        cases hf : afterFlags (c::f) with
        | nil => exact absurd (start_end hf (List.cons_ne_nil _ _)).1 hend
        | cons k rest =>
          obtain ⟨hstage, -, hlen⟩ := start_conversion hf
          rw [hf] at hat
          rw [List.length_cons] at hlen
          exact ih false (by omega) hat.advance (hmatch k rest hf) (hstage ▸ hend)
      | false =>
        rw [if_neg (by decide)]
        by_cases hc : c = 37
        · subst hc
          rw [if_pos rfl]
          exact ih true (by omega) h.peek.advance hm hend
        · have hstage : next .text c = .text := if_neg hc
          rw [if_neg hc]
          rw [show stageOf false = .text from rfl, List.foldl_cons, hstage] at hend
          rw [show stageOf false = .text from rfl, conversions, hstage] at hm
          exact ih false (by omega) (h.peek.taken _ [c] 1).advance hm hend

/-- If it returns from a format that ends inside of a directive, it has read behind the zero. -/
theorem libc_loop_beyond (fuel : ℕ) (inFormat : Bool) (h : At m p e s f)
    (hend : f.foldl next (stageOf inFormat) = .inside)
    (hl : Libc.loop ops m rounds fuel inFormat s = .ended s') : u32 (e+1) ∈ s'.reads := by
  induction fuel generalizing inFormat s f with
  | zero => cases hl
  | succ fuel ih =>
    cases f with
    | nil => cases inFormat <;> cases hend
    | cons c f =>
      rw [Libc.loop] at hl
      dsimp only [Printing.peek] at hl
      rw [h.char.1, if_neg h.char.2] at hl
      cases inFormat with
      | true =>
        rw [if_pos rfl] at hl
        split at hl
        · cases hl
        · next s1 hd =>
          have hat := libc_directive_at h.peek hd
          cases hf : afterFlags (c::f) with
          | nil =>
            rw [hf] at hat
            rw [← hat.beyond]
            exact (libc_loop_reads hl).1
          | cons k rest =>
            rw [hf] at hat
            exact ih false hat.advance ((start_conversion hf).1 ▸ hend) hl
      | false =>
        rw [if_neg (by decide)] at hl
        by_cases hc : c = 37
        · subst hc
          rw [if_pos rfl] at hl
          exact ih true h.peek.advance hend hl
        · have hstage : next .text c = .text := if_neg hc
          rw [if_neg hc] at hl
          rw [show stageOf false = .text from rfl, List.foldl_cons, hstage] at hend
          exact ih false (h.peek.taken _ [c] 1).advance hend hl

theorem kernel_loop_ends (fuel : ℕ) (hfuel : f.length < fuel) (hr : 4294967296 ≤ rounds)
    (h : At m p e s f) (hm : Matching m kernelTakes (conversions .text f) s.args) :
    ∃ s', Kernel.loop m rounds fuel s = .ended s' ∧ ∀ k ∈ s'.reads, p ≤ k ∧ k ≤ e := by
  induction fuel generalizing s f with
  | zero => omega
  | succ fuel ih =>
    rw [Kernel.loop]
    dsimp only [Printing.peek]
    cases f with
    | nil => exact ⟨_, if_pos h.zero, h.peek.reads⟩
    | cons c f =>
      rw [h.char.1, if_neg h.char.2]
      rw [List.length_cons] at hfuel
      by_cases hc : c = 37
      · subst hc
        obtain ⟨s1, hd, hmatch⟩ := kernel_directive_returns h.peek.advance hm hr
        have hat := kernel_directive_at h.peek.advance hd
        dsimp only [Printing.peek] at hd
        rw [if_pos rfl, hd]
        dsimp only
        cases hf : afterFlags f with
        | nil =>
          -- the zero is not stepped over
          rw [hf] at hat
          rw [hat.zero, if_neg (not_not.mpr rfl)]
          exact ih (f := []) (by rw [List.length_nil]; omega) hat.peek trivial
        | cons k rest =>
          obtain ⟨-, -, hlen⟩ := start_conversion hf
          rw [hf] at hat
          rw [hat.char.1, if_pos hat.char.2]
          exact ih (by omega) hat.peek.advance (hmatch k rest hf)
      · have hstage : next .text c = .text := if_neg hc
        have hput := h.peek.taken s.args [c] 0
        rw [conversions, hstage] at hm
        rw [if_neg hc]
        dsimp only
        have hchar : m (Printing.put ⟨s.format, s.format::s.reads, s.args, s.out, s.count⟩
            [c] 0).format ≠ 0 := fun h0 => h.char.2 (h.char.1.symm.trans h0)
        rw [if_pos hchar]
        exact ih (by omega) hput.peek.advance hm

end Loops

/-- Both calls stay inside of the format and return exactly when it does not end behind the minus
sign or the width of a directive. The kernel's call does so for every format. -/
theorem printf_stops (ops : Doubles D) (m : Memory) (p : ℕ) (f : List UInt8) (hp : p ≠ 0)
    (hf : CString m p f) (args args' : List (Arg D))
    (hargs : Matching m libcTakes (conversions .text f) args)
    (hargs' : Matching m kernelTakes (conversions .text f) args') :
    (Safe (fun rounds => Libc.printf ops m rounds p args) p (p+f.length) ∧
        Safe (fun rounds => Kernel.printf m rounds p args') p (p+f.length) ↔ ¬ Truncated f) ∧
      Safe (fun rounds => Kernel.printf m rounds p args') p (p+f.length) := by
  have hbelow := hf.below
  have hat : ∀ args : List (Arg D), At m p (p+f.length) ⟨p, [], args, [], 0⟩ f :=
    fun args => ⟨hf, le_rfl, rfl, fun k hk => by cases hk⟩
  have hkernel : Safe (fun rounds => Kernel.printf m rounds p args') p (p+f.length) := by
    obtain ⟨s, hrun, hreads⟩ := kernel_loop_ends 4294967296 (by omega) le_rfl (hat args') hargs'
    exact ⟨4294967296, s, hrun, hreads⟩
  refine ⟨⟨fun h htrunc => ?_, fun hend => ⟨?_, hkernel⟩⟩, hkernel⟩
  · obtain ⟨⟨rounds, s, hrun, hreads⟩, -⟩ := h
    have hbeyond := hreads _ (libc_loop_beyond rounds false (hat args) htrunc hrun)
    unfold u32 at hbeyond
    omega
  · obtain ⟨s, hrun, hreads⟩ := libc_loop_ends ops 4294967296 false (by omega) le_rfl (hat args)
      hargs hend
    exact ⟨4294967296, s, hrun, hreads⟩

/-- No format that needs a `double` is printed with these. -/
def noDoubles : Doubles Unit where
  isNegative _ := false
  neg d := d
  toUInt _ := 0
  subUInt d _ := d
  timesTen d := d
  toInt _ := 0
  subInt d _ := d

/-- The format `%-` at 4096, with a zero behind it, and then other bytes. -/
def dashFormat : Memory := fun k =>
  if k = 4096 then 37 else if k = 4097 then 45 else if k = 4098 then 0 else if k = 4099 then 65 else 0

theorem dashFormat_string : CString dashFormat 4096 [37, 45] := by
  refine ⟨?_, by decide, by decide⟩
  unfold Holds
  decide

/-- The C library reads the byte behind the zero of `%-`, which takes no argument. -/
theorem libc_reads_beyond :
    CString dashFormat 4096 [37, 45] ∧
      Matching (D := Unit) dashFormat libcTakes (conversions .text [37, 45]) [] ∧
      ¬ Safe (fun rounds => Libc.printf noDoubles dashFormat rounds 4096 []) 4096 4098 := by
  refine ⟨dashFormat_string, trivial, ?_⟩
  rintro ⟨rounds, s, hrun, hreads⟩
  have hat : At dashFormat 4096 4098 (⟨4096, [], [], [], 0⟩ : Printing Unit) [37, 45] :=
    ⟨dashFormat_string, le_rfl, rfl, fun k hk => by cases hk⟩
  have hbeyond := hreads _ (libc_loop_beyond rounds false hat rfl hrun)
  revert hbeyond
  decide

/-- The format `-` is printed by both, and of `%-` only the kernel stays inside. -/
theorem printf_stops_formats :
    (Safe (fun rounds => Libc.printf noDoubles (fun k => dashFormat (k-1)) rounds 4098 []) 4098 4099 ∧
      Safe (fun rounds => Kernel.printf (D := Unit) (fun k => dashFormat (k-1)) rounds 4098 []) 4098
        4099) ∧
    Safe (fun rounds => Kernel.printf (D := Unit) dashFormat rounds 4096 []) 4096 4098 := by
  have hdash : CString (fun k => dashFormat (k-1)) 4098 [45] := by
    refine ⟨?_, by decide, by decide⟩
    unfold Holds
    decide
  exact ⟨(printf_stops noDoubles _ 4098 [45] (by decide) hdash [] [] trivial trivial).1.mpr
      (by unfold Truncated; decide),
    (printf_stops noDoubles dashFormat 4096 [37, 45] (by decide) dashFormat_string [] [] trivial
      trivial).2⟩

end Vlsmc.FormatEnds
