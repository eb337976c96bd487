import Vlsmc.KeyboardDriver

/-!
# What is typed is read

The meaning of a scan code depends on the bytes before it: which modifier was pressed and
released last, how often CapsLock was pressed, how often the layout was switched. The
driver's reads return the characters typed, in order and once each. A character is lost
only when 255 of them wait.
-/

set_option autoImplicit false

namespace Vlsmc.TypedKeys
open Vlsmc.KeyboardDriver Vlsmc.DropOldest

section History

/-- The bytes that are neither the prefix `0xE0` nor behind one; the flag says that one
came before. -/
def plainFrom : Bool → List ℕ → List ℕ
  | _, [] => []
  | e, b::bs =>
    if b = 0xE0 then plainFrom true bs
    else if e then plainFrom false bs
    else b::plainFrom false bs

def plain (hs : List ℕ) : List ℕ := plainFrom false hs

/-- The last byte of a key with one of these make codes was a press. -/
def Held (makeCodes hs : List ℕ) : Prop :=
  ∃ b ∈ ((plain hs).filter fun b => b%128 ∈ makeCodes).getLast?, b < 128

instance (makeCodes hs : List ℕ) : Decidable (Held makeCodes hs) := by
  unfold Held
  infer_instance

def ShiftHeld (hs : List ℕ) : Prop := Held [0x2A, 0x36] hs
def CtrlHeld (hs : List ℕ) : Prop := Held [0x1D] hs
def AltHeld (hs : List ℕ) : Prop := Held [0x38] hs

instance (hs : List ℕ) : Decidable (ShiftHeld hs) := inferInstanceAs (Decidable (Held _ _))
instance (hs : List ℕ) : Decidable (CtrlHeld hs) := inferInstanceAs (Decidable (Held _ _))
instance (hs : List ℕ) : Decidable (AltHeld hs) := inferInstanceAs (Decidable (Held _ _))

/-- CapsLock was pressed an odd number of times. -/
def CapsOn (hs : List ℕ) : Prop := ((plain hs).count 0x3A)%2 = 1

instance (hs : List ℕ) : Decidable (CapsOn hs) := inferInstanceAs (Decidable (_ = _))

/-- The byte presses a key other than the modifiers and CapsLock. -/
def PressesKey (hs : List ℕ) (b : ℕ) : Prop :=
  hs.getLast? ≠ some 0xE0 ∧ b < 128 ∧ b ∉ [0x2A, 0x36, 0x1D, 0x38, 0x3A]

instance (hs : List ℕ) (b : ℕ) : Decidable (PressesKey hs b) := inferInstanceAs (Decidable (_ ∧ _))

/-- The presses that switch the layout. -/
def switches (hs : List ℕ) : List ℕ :=
  (List.range hs.length).filter fun i =>
    PressesKey (hs.take i) (hs.getD i 0) ∧ AltHeld (hs.take i) ∧ ShiftHeld (hs.take i)

def layoutOf (hs : List ℕ) : ℕ := (switches hs).length%2

/-- The key types a letter. -/
def IsLetterKey (layout makeCode : ℕ) : Prop :=
  Keyboard.isLetter (charAt (mapNormal layout) makeCode) = true

instance (layout makeCode : ℕ) : Decidable (IsLetterKey layout makeCode) :=
  inferInstanceAs (Decidable (_ = _))

/-- On letters CapsLock turns Shift around. -/
def Upper (hs : List ℕ) (makeCode : ℕ) : Prop :=
  if IsLetterKey (layoutOf hs) makeCode ∧ CapsOn hs then ¬ShiftHeld hs else ShiftHeld hs

instance (hs : List ℕ) (makeCode : ℕ) : Decidable (Upper hs makeCode) := by
  unfold Upper
  infer_instance

def plainChar (hs : List ℕ) (makeCode : ℕ) : ℕ :=
  charAt (if Upper hs makeCode then mapShift (layoutOf hs) else mapNormal (layoutOf hs)) makeCode

/-- Ctrl takes 96 away from a letter. -/
def keyChar (hs : List ℕ) (makeCode : ℕ) : ℕ :=
  if CtrlHeld hs ∧ IsLetterKey (layoutOf hs) makeCode then (plainChar hs makeCode+160)%256
  else plainChar hs makeCode

/-- The character a byte types after the bytes before it. -/
def typed (hs : List ℕ) (b : ℕ) : Option ℕ :=
  if hs.getLast? = some 0xE0 then
    if b = 0x48 then some 0x80 else if b = 0x50 then some 0x81 else none
  else if PressesKey hs b ∧ ¬(AltHeld hs ∧ ShiftHeld hs) ∧ ¬(0x3B ≤ b ∧ b ≤ 0x44) ∧
      plainChar hs b ≠ 0 then
    some (keyChar hs b)
  else none

end History

/-- The bytes so far, the characters kept, and how many of them were read. -/
structure Typist where
  history : List ℕ
  kept : List ℕ
  taken : ℕ

namespace Typist

def start : Typist := ⟨[], [], 0⟩

def keep (t : Typist) (c : Option ℕ) : List ℕ :=
  if t.kept.length-t.taken < 255 then t.kept++c.toList else t.kept

def key (t : Typist) (b : ℕ) : Typist :=
  { t with history := t.history++[b], kept := t.keep (typed t.history b) }

def read (t : Typist) : Typist :=
  { t with taken := if t.taken < t.kept.length then t.taken+1 else t.taken }

def step (t : Typist) : Event → Typist
  | .scancode byte => t.key byte
  | .read => t.read

def run (t : Typist) (es : List Event) : Typist := es.foldl step t

def replies : Typist → List Event → List ℕ
  | _, [] => []
  | t, .scancode byte::es => replies (t.key byte) es
  | t, .read::es => t.kept.getD t.taken 0::replies t.read es

end Typist

/-- The driver's modifiers are what the bytes so far make them. -/
structure Tracks (k : Keyboard) (hs : List ℕ) : Prop where
  extended : k.extendedKey = decide (hs.getLast? = some 0xE0)
  shift : k.shiftPressed = decide (ShiftHeld hs)
  ctrl : k.ctrlPressed = decide (CtrlHeld hs)
  alt : k.altPressed = decide (AltHeld hs)
  caps : k.capsLockActive = decide (CapsOn hs)
  layout : k.currentLayout = layoutOf hs

/-- The ring holds the characters kept and not yet taken. -/
structure Holds (k : Keyboard) (kept : List ℕ) (taken : ℕ) : Prop where
  head : k.bufferHead < 256
  tail : k.bufferTail < 256
  known : taken ≤ kept.length
  waiting : (ring k.charBuffer k.bufferHead k.bufferTail 255).items = kept.drop taken
  notices : k.notices = kept.length
  nonzero : 0 ∉ kept

structure Represents (k : Keyboard) (t : Typist) : Prop where
  modifiers : Tracks k t.history
  buffer : Holds k t.kept t.taken

section Histories

variable (hs : List ℕ) (b : ℕ)

theorem plainFrom_append (e : Bool) : plainFrom e (hs++[b]) = plainFrom e hs++
    if b = 0xE0 ∨ (hs.getLast?.elim e fun l => decide (l = 0xE0)) = true then [] else [b] := by
  induction hs generalizing e with
  | nil =>
    by_cases hb : b = 0xE0
    · simp [plainFrom, hb]
    · cases e <;> simp [plainFrom, hb]
  | cons h hs ih =>
    have hlast : ((h::hs).getLast?.elim e fun l => decide (l = 0xE0)) =
        hs.getLast?.elim (decide (h = 0xE0)) fun l => decide (l = 0xE0) := by
      cases hs with
      | nil => rfl
      | cons _ _ => rw [List.getLast?_cons_cons, List.getLast?_eq_some_getLast (by simp)]; rfl
    rw [hlast, List.cons_append, plainFrom, plainFrom]
    by_cases hh : h = 0xE0
    · rw [if_pos hh, if_pos hh, ih, decide_eq_true hh]
    · rw [if_neg hh, if_neg hh, decide_eq_false hh]
      cases e
      · simp only [Bool.false_eq_true, if_false, ih, List.cons_append]
      · simp only [if_true, ih]

/-- A byte is plain when it is no prefix and follows none. -/
theorem plain_append : plain (hs++[b]) = plain hs++
    if b = 0xE0 ∨ hs.getLast? = some 0xE0 then [] else [b] := by
  have hlast : (hs.getLast?.elim false fun l => decide (l = 0xE0)) =
      decide (hs.getLast? = some 0xE0) := by
    cases hs.getLast? <;> simp
  simp only [plain, plainFrom_append, hlast, decide_eq_true_iff]

theorem held_append (makeCodes : List ℕ) (hcodes : 0x60 ∉ makeCodes) :
    Held makeCodes (hs++[b]) ↔
      if hs.getLast? ≠ some 0xE0 ∧ b%128 ∈ makeCodes then b < 128 else Held makeCodes hs := by
  unfold Held
  rw [plain_append]
  by_cases hlast : hs.getLast? = some 0xE0
  · rw [if_pos (Or.inr hlast), List.append_nil, if_neg fun h => h.1 hlast]
  by_cases hb : b = 0xE0
  · rw [if_pos (Or.inl hb), List.append_nil, if_neg fun h => hcodes (by simpa [hb] using h.2)]
  rw [if_neg (not_or.mpr ⟨hb, hlast⟩), List.filter_append]
  by_cases hmem : b%128 ∈ makeCodes
  · rw [if_pos ⟨hlast, hmem⟩, List.filter_cons_of_pos (by simpa using hmem), List.filter_nil,
      List.getLast?_append, List.getLast?_singleton]
    simp
  · rw [if_neg fun h => hmem h.2, List.filter_cons_of_neg (by simpa using hmem), List.filter_nil,
      List.append_nil]

theorem capsOn_append : CapsOn (hs++[b]) ↔
    if hs.getLast? ≠ some 0xE0 ∧ b = 0x3A then ¬CapsOn hs else CapsOn hs := by
  unfold CapsOn
  rw [plain_append, List.count_append]
  by_cases hlast : hs.getLast? = some 0xE0
  · rw [if_pos (Or.inr hlast), if_neg fun h => h.1 hlast, List.count_nil, Nat.add_zero]
  by_cases hb : b = 0x3A
  · have hplain : ¬(b = 0xE0 ∨ hs.getLast? = some 0xE0) := by
      rintro (h | h)
      · omega
      · exact hlast h
    rw [if_neg hplain, if_pos (And.intro hlast hb), hb, List.count_singleton_self]
    omega
  · have hcount : (if b = 0xE0 ∨ hs.getLast? = some 0xE0 then [] else [b]).count 0x3A = 0 := by
      apply List.count_eq_zero_of_not_mem
      intro h
      split_ifs at h
      · exact List.not_mem_nil h
      · exact hb (List.mem_singleton.mp h).symm
    have hno : ¬(hs.getLast? ≠ some 0xE0 ∧ b = 0x3A) := fun h => hb h.2
    rw [hcount, if_neg hno, Nat.add_zero]

theorem layoutOf_append : layoutOf (hs++[b]) =
    if PressesKey hs b ∧ AltHeld hs ∧ ShiftHeld hs then (layoutOf hs+1)%2 else layoutOf hs := by
  have hold : (List.range hs.length).filter (fun i =>
      PressesKey ((hs++[b]).take i) ((hs++[b]).getD i 0) ∧ AltHeld ((hs++[b]).take i) ∧
        ShiftHeld ((hs++[b]).take i)) = switches hs := by
    apply List.filter_congr
    intro i hi
    have hlt := List.mem_range.mp hi
    rw [List.take_append_of_le_length hlt.le, List.getD_eq_getElem?_getD,
      List.getElem?_append_left hlt, ← List.getD_eq_getElem?_getD]
  have hnew : switches (hs++[b]) =
      switches hs++if PressesKey hs b ∧ AltHeld hs ∧ ShiftHeld hs then [hs.length] else [] := by
    rw [switches, List.length_append, List.length_singleton, List.range_succ, List.filter_append,
      hold]
    congr 1
    have htake : (hs++[b]).take hs.length = hs := List.take_left
    have hget : (hs++[b]).getD hs.length 0 = b := by
      rw [List.getD_eq_getElem?_getD, List.getElem?_append_right le_rfl, Nat.sub_self]
      rfl
    rw [List.filter_cons, htake, hget, List.filter_nil]
    simp only [decide_eq_true_iff]
  unfold layoutOf
  rw [hnew]
  split_ifs
  · rw [List.length_append, List.length_singleton]
    omega
  · rw [List.append_nil]

end Histories

section Modifiers

variable {k k' : Keyboard} {hs : List ℕ} {b : ℕ}

theorem decide_held {p q r c : Prop} [Decidable p] [Decidable q] [Decidable r] [Decidable c]
    {x : Bool} (hx : x = decide p) (h : q ↔ if c then r else p) :
    (if c then decide r else x) = decide q := by
  apply Bool.eq_iff_iff.mpr
  rw [decide_eq_true_iff, h, hx]
  split_ifs <;> simp

/-- What a byte does to the modifiers. -/
theorem Tracks.append (h : Tracks k hs)
    (hextended : k'.extendedKey = decide (b = 0xE0))
    (hshift : k'.shiftPressed = if k.extendedKey = false ∧ b%128 ∈ [0x2A, 0x36] then
      decide (b < 128) else k.shiftPressed)
    (hctrl : k'.ctrlPressed = if k.extendedKey = false ∧ b%128 ∈ [0x1D] then
      decide (b < 128) else k.ctrlPressed)
    (halt : k'.altPressed = if k.extendedKey = false ∧ b%128 ∈ [0x38] then
      decide (b < 128) else k.altPressed)
    (hcaps : k'.capsLockActive = if k.extendedKey = false ∧ b = 0x3A then
      !k.capsLockActive else k.capsLockActive)
    (hlayout : k'.currentLayout = if PressesKey hs b ∧ k.altPressed = true ∧
        k.shiftPressed = true then (k.currentLayout+1)%2 else k.currentLayout) :
    Tracks k' (hs++[b]) := by
  have hnot : k.extendedKey = false ↔ hs.getLast? ≠ some 0xE0 := by
    rw [h.extended, decide_eq_false_iff_not]
  simp only [hnot] at hshift hctrl halt hcaps
  constructor
  case extended => simp [hextended]
  case shift => exact hshift.trans (decide_held h.shift (held_append hs b _ (by decide)))
  case ctrl => exact hctrl.trans (decide_held h.ctrl (held_append hs b _ (by decide)))
  case alt => exact halt.trans (decide_held h.alt (held_append hs b _ (by decide)))
  case caps =>
    rw [hcaps, h.caps]
    apply Bool.eq_iff_iff.mpr
    rw [decide_eq_true_iff, capsOn_append]
    split_ifs <;> simp
  case layout =>
    rw [hlayout, layoutOf_append, h.layout, h.alt, h.shift]
    simp only [decide_eq_true_iff]

end Modifiers

section Characters

/-- No letter of the layouts is 96, with or without Shift. -/
theorem tables_letters (layout : ℕ) : (mapNormal layout).length = (mapShift layout).length ∧
    ∀ p ∈ (mapNormal layout).zip (mapShift layout), Keyboard.isLetter p.1 = true →
      (p.1+160)%256 ≠ 0 ∧ (p.2+160)%256 ≠ 0 := by
  unfold mapNormal mapShift
  split_ifs
  · decide +kernel
  · decide +kernel

/-- Ctrl and a letter do not make the character zero. -/
theorem control_ne_zero (layout : ℕ) (upper : Bool) (b : ℕ) (hletter : IsLetterKey layout b) :
    (charAt (if upper then mapShift layout else mapNormal layout) b+160)%256 ≠ 0 := by
  obtain ⟨hlength, hpairs⟩ := tables_letters layout
  unfold IsLetterKey at hletter
  generalize mapNormal layout = normal, mapShift layout = shift at hletter hlength hpairs ⊢
  simp only [charAt, List.getD_eq_getElem?_getD] at hletter ⊢
  by_cases hb : b < normal.length
  · have hb' : b < shift.length := hlength ▸ hb
    have hzip : b < (normal.zip shift).length := by
      rw [List.length_zip]
      omega
    have hpair := hpairs _ (List.getElem_mem hzip)
    rw [List.getElem_zip] at hpair
    rw [List.getElem?_eq_getElem hb, Option.getD_some] at hletter
    cases upper
    · rw [if_neg Bool.false_ne_true, List.getElem?_eq_getElem hb, Option.getD_some]
      exact (hpair hletter).1
    · rw [if_pos rfl, List.getElem?_eq_getElem hb', Option.getD_some]
      exact (hpair hletter).2
  · rw [List.getElem?_eq_none (not_lt.mp hb), Option.getD_none] at hletter
    exact absurd hletter (by decide)

theorem typed_ne_zero {hs : List ℕ} {b : ℕ} : typed hs b ≠ some 0 := by
  intro h
  unfold typed at h
  split_ifs at h with hprefix h1 h2 hkey
  · cases h
  · cases h
  · have hchar := Option.some.inj h
    unfold keyChar at hchar
    split_ifs at hchar with hctrl
    · apply control_ne_zero (layoutOf hs) (decide (Upper hs b)) b hctrl.2
      simpa [plainChar] using hchar
    · exact hkey.2.2.2 hchar

end Characters

section Bytes

variable {k k' : Keyboard} {hs : List ℕ} {b : ℕ}

/-- The same ring and the same announcements. -/
def SameBuffer (k k' : Keyboard) : Prop :=
  k'.charBuffer = k.charBuffer ∧ k'.bufferHead = k.bufferHead ∧ k'.bufferTail = k.bufferTail ∧
    k'.notices = k.notices

theorem typed_extended (hs : List ℕ) (h : hs.getLast? = some 0xE0) :
    typed hs b = if b = 0x48 then some 0x80 else if b = 0x50 then some 0x81 else none := if_pos h

theorem typed_no_key (h : hs.getLast? ≠ some 0xE0) (hb : ¬PressesKey hs b) : typed hs b = none := by
  unfold typed
  rw [if_neg h, if_neg fun hkey => hb hkey.1]

theorem extended_eq (k : Keyboard) (hb : b ≠ 0xE0) (h : hs.getLast? = some 0xE0) :
    k.extended b = (typed hs b).elim { k with extendedKey := false }
      (Keyboard.store { k with extendedKey := false }) := by
  rw [typed_extended hs h]
  unfold Keyboard.extended
  by_cases h1 : b = 0x48
  · subst h1
    rfl
  · by_cases h2 : b = 0x50
    · subst h2
      rfl
    · simp [h1, h2]

theorem typed_key (hkey : PressesKey hs b) (hswitch : ¬(AltHeld hs ∧ ShiftHeld hs))
    (hfunction : ¬(0x3B ≤ b ∧ b ≤ 0x44)) :
    typed hs b = if plainChar hs b ≠ 0 then some (keyChar hs b) else none := by
  unfold typed
  rw [if_neg hkey.1]
  simp only [hkey, hswitch, hfunction, not_false_eq_true, true_and]

theorem translate_eq (h : Tracks k hs) (hkey : PressesKey hs b)
    (hswitch : ¬(AltHeld hs ∧ ShiftHeld hs)) (hfunction : ¬(0x3B ≤ b ∧ b ≤ 0x44)) :
    k.translate b = (typed hs b).elim k k.store := by
  have hchar : (if k.shiftPressed = true then
        (if (k.capsLockActive && Keyboard.isLetter (charAt (mapNormal k.currentLayout) b)) = true then
          charAt (mapNormal k.currentLayout) b else charAt (mapShift k.currentLayout) b)
      else if (k.capsLockActive && Keyboard.isLetter (charAt (mapNormal k.currentLayout) b)) = true
        then charAt (mapShift k.currentLayout) b else charAt (mapNormal k.currentLayout) b) =
      plainChar hs b := by
    rw [h.shift, h.caps, h.layout]
    unfold plainChar Upper IsLetterKey
    by_cases hs1 : ShiftHeld hs <;> by_cases hc1 : CapsOn hs <;>
    by_cases hl1 : Keyboard.isLetter (charAt (mapNormal (layoutOf hs)) b) = true <;>
      simp [hs1, hc1, hl1]
  simp only [Keyboard.translate, hchar]
  rw [typed_key hkey hswitch hfunction, h.ctrl, h.layout]
  by_cases hzero : plainChar hs b ≠ 0
  · rw [if_pos hzero, if_pos hzero, Option.elim_some]
    unfold keyChar IsLetterKey
    simp only [Bool.and_eq_true, decide_eq_true_iff]
    congr
  · rw [if_neg hzero, if_neg hzero, Option.elim_none]

/-- A byte moves the modifiers and puts at most one character in. -/
def Decodes (k : Keyboard) (hs : List ℕ) (b : ℕ) : Prop :=
  ∃ k', Tracks k' (hs++[b]) ∧ SameBuffer k k' ∧
    k.processScancode b = (typed hs b).elim k' k'.store

theorem process_prefix (h : Tracks k hs) (hb : b = 0xE0) : Decodes k hs b := by
  have hkey : ¬PressesKey hs b := fun hkey => absurd hkey.2.1 (by omega)
  refine ⟨{ k with extendedKey := true }, ?_, ⟨rfl, rfl, rfl, rfl⟩, ?_⟩
  · apply h.append <;> simp [hb, hb ▸ hkey]
  · have hnone : typed hs b = none := by
      by_cases hlast : hs.getLast? = some 0xE0
      · rw [typed_extended hs hlast, hb]
        rfl
      · exact typed_no_key hlast hkey
    rw [Keyboard.processScancode, if_pos hb, hnone, Option.elim_none]

theorem process_extended (h : Tracks k hs) (hb : b ≠ 0xE0) (hlast : hs.getLast? = some 0xE0) :
    Decodes k hs b := by
  have hext : k.extendedKey = true := by rw [h.extended, decide_eq_true_iff, hlast]
  have hkey : ¬PressesKey hs b := fun hkey => hkey.1 hlast
  refine ⟨{ k with extendedKey := false }, ?_, ⟨rfl, rfl, rfl, rfl⟩, ?_⟩
  · apply h.append <;> simp [hext, hb, hkey]
  · rw [Keyboard.processScancode, if_neg hb, if_pos hext, extended_eq k hb hlast]

/-- Bytes of the modifiers and of CapsLock type nothing. -/
theorem process_modifier (h : Tracks k hs) (hb : b ≠ 0xE0) (hlast : hs.getLast? ≠ some 0xE0)
    (hmod : b%128 ∈ [0x2A, 0x36, 0x1D, 0x38] ∨ b = 0x3A) : Decodes k hs b := by
  have hoff : k.extendedKey = false := by rw [h.extended, decide_eq_false hlast]
  have hrelease : (!decide (128 ≤ b)) = decide (b < 128) := by
    simp only [← not_lt, decide_not, Bool.not_not]
  simp only [List.mem_cons, List.not_mem_nil, or_false] at hmod
  have hkey : ¬PressesKey hs b := by
    rintro ⟨-, hlt, hb⟩
    simp only [List.mem_cons, List.not_mem_nil, or_false, not_or] at hb
    omega
  have hnone := typed_no_key hlast hkey
  by_cases hshift : b%128 = 0x2A ∨ b%128 = 0x36
  · have hother : b%128 ≠ 0x1D ∧ b%128 ≠ 0x38 ∧ b ≠ 0x3A := by omega
    refine ⟨{ k with shiftPressed := decide (b < 128) }, ?_, ⟨rfl, rfl, rfl, rfl⟩, ?_⟩
    · apply h.append <;> simp [hoff, hb, hshift, hother, hkey]
    · simp [Keyboard.processScancode, hb, hoff, hshift, hrelease, hnone]
  by_cases hctrl : b%128 = 0x1D
  · have hcaps : b ≠ 0x3A := by omega
    refine ⟨{ k with ctrlPressed := decide (b < 128) }, ?_, ⟨rfl, rfl, rfl, rfl⟩, ?_⟩
    · apply h.append <;> simp [hoff, hb, hctrl, hcaps, hkey]
    · simp [Keyboard.processScancode, hb, hoff, hctrl, hrelease, hnone]
  by_cases halt : b%128 = 0x38
  · have hcaps : b ≠ 0x3A := by omega
    refine ⟨{ k with altPressed := decide (b < 128) }, ?_, ⟨rfl, rfl, rfl, rfl⟩, ?_⟩
    · apply h.append <;> simp [hoff, hb, halt, hcaps, hkey]
    · simp [Keyboard.processScancode, hb, hoff, halt, hrelease, hnone]
  · have hcaps : b = 0x3A := by omega
    refine ⟨{ k with capsLockActive := !k.capsLockActive }, ?_, ⟨rfl, rfl, rfl, rfl⟩, ?_⟩
    · apply h.append <;> simp [hoff, hcaps, hcaps ▸ hkey]
    · simp [Keyboard.processScancode, hoff, hcaps, hcaps ▸ hnone]

/-- Bytes of the other keys leave the modifiers alone, but a press may switch the layout. -/
theorem process_key (h : Tracks k hs) (hb : b ≠ 0xE0) (hlast : hs.getLast? ≠ some 0xE0)
    (hmod : ¬(b%128 ∈ [0x2A, 0x36, 0x1D, 0x38] ∨ b = 0x3A)) : Decodes k hs b := by
  have hoff : k.extendedKey = false := by rw [h.extended, decide_eq_false hlast]
  simp only [List.mem_cons, List.not_mem_nil, or_false, not_or] at hmod
  have hkey : PressesKey hs b ↔ b < 128 := by
    simp only [PressesKey, ne_eq, hlast, not_false_eq_true, true_and, List.mem_cons,
      List.not_mem_nil, or_false, not_or]
    omega
  have hsame : ¬(PressesKey hs b ∧ k.altPressed = true ∧ k.shiftPressed = true) →
      Tracks k (hs++[b]) := by
    intro hswitch
    apply h.append <;> simp [hoff, hb, hmod, hswitch]
  by_cases hpress : PressesKey hs b
  case neg =>
    refine ⟨k, hsame fun h => hpress h.1, ⟨rfl, rfl, rfl, rfl⟩, ?_⟩
    rw [typed_no_key hlast hpress]
    rw [hkey, not_lt] at hpress
    simp [Keyboard.processScancode, hb, hoff, hmod, hpress]
  have hmake : b%128 = b := Nat.mod_eq_of_lt (hkey.mp hpress)
  have hprocess : k.processScancode b =
      if k.altPressed = true ∧ k.shiftPressed = true then
        { k with currentLayout := (k.currentLayout+1)%2 }
      else if 0x3B ≤ b ∧ b ≤ 0x44 then k else k.translate b := by
    have hrel : ¬128 ≤ b := not_le.mpr (hkey.mp hpress)
    rw [hmake] at hmod
    simp [Keyboard.processScancode, hb, hoff, hmake, hmod, hrel]
  have hheld : (k.altPressed = true ∧ k.shiftPressed = true) ↔ AltHeld hs ∧ ShiftHeld hs := by
    rw [h.alt, h.shift, decide_eq_true_iff, decide_eq_true_iff]
  by_cases hswitch : k.altPressed = true ∧ k.shiftPressed = true
  · have hnone : typed hs b = none := by
      unfold typed
      rw [if_neg hlast, if_neg fun h => h.2.1 (hheld.mp hswitch)]
    refine ⟨{ k with currentLayout := (k.currentLayout+1)%2 }, ?_, ⟨rfl, rfl, rfl, rfl⟩, ?_⟩
    · apply h.append <;> simp [hoff, hb, hmod, hswitch, hpress]
    · rw [hprocess, hnone, if_pos hswitch, Option.elim_none]
  refine ⟨k, hsame fun h => hswitch h.2, ⟨rfl, rfl, rfl, rfl⟩, ?_⟩
  rw [hprocess, if_neg hswitch]
  by_cases hfunction : 0x3B ≤ b ∧ b ≤ 0x44
  · have hnone : typed hs b = none := by
      unfold typed
      rw [if_neg hlast, if_neg fun h => h.2.2.1 hfunction]
    rw [if_pos hfunction, hnone, Option.elim_none]
  · rw [if_neg hfunction, translate_eq h hpress (fun h => hswitch (hheld.mpr h)) hfunction]

theorem process_decodes (h : Tracks k hs) (b : ℕ) : Decodes k hs b := by
  by_cases hb : b = 0xE0
  · exact process_prefix h hb
  by_cases hlast : hs.getLast? = some 0xE0
  · exact process_extended h hb hlast
  by_cases hmod : b%128 ∈ [0x2A, 0x36, 0x1D, 0x38] ∨ b = 0x3A
  · exact process_modifier h hb hlast hmod
  · exact process_key h hb hlast hmod

end Bytes

section Buffer

variable {k k' : Keyboard} {hs kept : List ℕ} {taken : ℕ}

theorem Holds.congr (h : Holds k kept taken) (hsame : SameBuffer k k') : Holds k' kept taken := by
  obtain ⟨hbuf, hhead, htail, hnotices⟩ := hsame
  constructor
  case head => rw [hhead]; exact h.head
  case tail => rw [htail]; exact h.tail
  case known => exact h.known
  case waiting => rw [hbuf, hhead, htail]; exact h.waiting
  case notices => rw [hnotices]; exact h.notices
  case nonzero => exact h.nonzero

theorem Tracks.store (h : Tracks k hs) (c : ℕ) : Tracks (k.store c) hs := by
  simp only [Keyboard.store]
  split_ifs
  · exact ⟨h.extended, h.shift, h.ctrl, h.alt, h.caps, h.layout⟩
  · exact h

/-- A character is kept exactly when fewer than 255 wait. -/
theorem Holds.store (h : Holds k kept taken) {c : ℕ} (hc : c ≠ 0) :
    Holds (k.store c) (if kept.length-taken < 255 then kept++[c] else kept) taken := by
  have hfull : (k.bufferHead+1)%256 = k.bufferTail ↔
      ¬(ring k.charBuffer k.bufferHead k.bufferTail 255).items.length < 255 :=
    ring_full_iff k.charBuffer h.head h.tail
  rw [h.waiting, List.length_drop] at hfull
  unfold Keyboard.store
  by_cases hroom : kept.length-taken < 255
  · have hne : (k.bufferHead+1)%256 ≠ k.bufferTail := fun he => hfull.mp he hroom
    rw [if_pos hne, if_pos hroom]
    constructor
    case head => exact Nat.mod_lt _ (by decide)
    case tail => exact h.tail
    case known =>
      rw [List.length_append]
      exact h.known.trans (Nat.le_add_right _ _)
    case waiting =>
      rw [List.drop_append_of_le_length h.known, ← h.waiting]
      exact ring_write_room h.head h.tail (if_pos rfl) (fun i hi => if_neg hi) hne
    case notices =>
      rw [List.length_append, List.length_singleton, ← h.notices]
    case nonzero =>
      intro hmem
      rcases List.mem_append.mp hmem with hmem | hmem
      · exact h.nonzero hmem
      · exact hc (List.mem_singleton.mp hmem).symm
  · rw [if_neg (not_not.mpr (hfull.mpr hroom)), if_neg hroom]
    exact h

/-- A read takes the oldest character waiting, or returns zero. -/
theorem Holds.read (h : Holds k kept taken) : k.getCharNonblocking.1 = kept.getD taken 0 ∧
    Holds k.getCharNonblocking.2 kept (if taken < kept.length then taken+1 else taken) := by
  unfold Keyboard.getCharNonblocking
  by_cases hempty : k.bufferHead = k.bufferTail
  · have hnone : kept.length ≤ taken := by
      have hwaiting := h.waiting
      rw [hempty, ring_empty] at hwaiting
      exact List.drop_eq_nil_iff.mp hwaiting.symm
    rw [if_pos hempty, if_neg (not_lt.mpr hnone), List.getD_eq_getElem?_getD,
      List.getElem?_eq_none hnone]
    exact ⟨rfl, h⟩
  · have hpop : (ring k.charBuffer k.bufferHead k.bufferTail 255).pop =
        (some (k.charBuffer k.bufferTail), ring k.charBuffer k.bufferHead ((k.bufferTail+1)%256) 255) :=
      ring_read k.charBuffer h.head h.tail hempty
    have hhead : kept[taken]? = some (k.charBuffer k.bufferTail) := by
      rw [← List.head?_drop, ← h.waiting]
      exact congrArg Prod.fst hpop
    have htail : (ring k.charBuffer k.bufferHead ((k.bufferTail+1)%256) 255).items =
        kept.drop (taken+1) := by
      rw [← List.tail_drop, ← h.waiting]
      exact congrArg (fun r => r.2.items) hpop.symm
    have hlt : taken < kept.length := (List.getElem?_eq_some_iff.mp hhead).choose
    rw [if_neg hempty, if_pos hlt, List.getD_eq_getElem?_getD, hhead]
    exact ⟨rfl, h.head, Nat.mod_lt _ (by decide), hlt, htail, h.notices, h.nonzero⟩

end Buffer

section Runs

variable {k : Keyboard} {t : Typist}

theorem represents_start (buffer : ℕ → ℕ) : Represents (.init buffer) .start := by
  constructor
  · constructor <;> rfl
  · refine ⟨Nat.zero_lt_succ _, Nat.zero_lt_succ _, le_rfl, ?_, rfl, List.not_mem_nil⟩
    exact congrArg Queue.items (ring_empty buffer 0)

theorem represents_key (h : Represents k t) (b : ℕ) :
    Represents (k.processScancode b) (t.key b) := by
  obtain ⟨k', htracks, hsame, he⟩ := process_decodes h.modifiers b
  have hholds := h.buffer.congr hsame
  rw [he]
  cases hc : typed t.history b with
  | none =>
    refine ⟨htracks, ?_⟩
    simpa [Typist.key, Typist.keep, hc] using hholds
  | some c =>
    refine ⟨htracks.store c, ?_⟩
    have hne : c ≠ 0 := fun hzero => typed_ne_zero (hzero ▸ hc)
    simpa [Typist.key, Typist.keep, hc] using hholds.store hne

theorem represents_read (h : Represents k t) : k.getCharNonblocking.1 = t.kept.getD t.taken 0 ∧
    Represents k.getCharNonblocking.2 t.read := by
  obtain ⟨hreply, hholds⟩ := h.buffer.read
  refine ⟨hreply, ?_, hholds⟩
  unfold Keyboard.getCharNonblocking
  split_ifs
  · exact h.modifiers
  · obtain ⟨h1, h2, h3, h4, h5, h6⟩ := h.modifiers
    exact ⟨h1, h2, h3, h4, h5, h6⟩

theorem represents_run (h : Represents k t) (es : List Event) :
    Represents (run k es) (t.run es) ∧ replies k es = t.replies es := by
  induction es generalizing k t with
  | nil => exact ⟨h, rfl⟩
  | cons e es ih =>
    cases e with
    | scancode b => exact ih (represents_key h b)
    | read =>
      obtain ⟨hreply, hnext⟩ := represents_read h
      obtain ⟨hrun, hreplies⟩ := ih hnext
      refine ⟨hrun, ?_⟩
      rw [replies, Typist.replies, hreply, hreplies]

theorem kept_step (t : Typist) (e : Event) : t.kept <+: (t.step e).kept := by
  cases e with
  | scancode b =>
    unfold Typist.step Typist.key Typist.keep
    split_ifs
    · exact List.prefix_append _ _
    · exact List.prefix_rfl
  | read => exact List.prefix_rfl

theorem kept_run (t : Typist) (es : List Event) : t.kept <+: (t.run es).kept := by
  induction es generalizing t with
  | nil => exact List.prefix_rfl
  | cons e es ih => exact (kept_step t e).trans (ih (t.step e))

theorem taken_step (t : Typist) (e : Event) (h : t.taken ≤ t.kept.length) :
    (t.step e).taken ≤ (t.step e).kept.length := by
  cases e with
  | scancode b => exact h.trans (kept_step t (.scancode b)).length_le
  | read =>
    simp only [Typist.step, Typist.read]
    split_ifs with hlt
    · exact hlt
    · exact h

/-- The characters taken before a run and those its reads return are those taken after it. -/
theorem replies_taken (t : Typist) (es : List Event) (h : t.taken ≤ t.kept.length)
    (hzero : 0 ∉ (t.run es).kept) :
    t.kept.take t.taken++(t.replies es).filter (fun c => c ≠ 0) =
      (t.run es).kept.take (t.run es).taken := by
  induction es generalizing t with
  | nil => exact List.append_nil _
  | cons e es ih =>
    have hrest := ih (t.step e) (taken_step t e h) hzero
    cases e with
    | scancode b =>
      obtain ⟨new, hnew⟩ := kept_step t (.scancode b)
      have htake : (t.step (.scancode b)).kept.take (t.step (.scancode b)).taken =
          t.kept.take t.taken := by
        rw [← hnew]
        exact List.take_append_of_le_length h
      rw [htake] at hrest
      exact hrest
    | read =>
      refine Eq.trans ?_ hrest
      by_cases hlt : t.taken < t.kept.length
      · have hne : t.kept[t.taken] ≠ 0 := by
          intro he
          exact hzero ((kept_run t _).subset (he ▸ List.getElem_mem hlt))
        have hget : t.kept.getD t.taken 0 = t.kept[t.taken] := by
          rw [List.getD_eq_getElem?_getD, List.getElem?_eq_getElem hlt, Option.getD_some]
        simp only [Typist.replies, Typist.step, Typist.read, if_pos hlt, hget]
        rw [List.filter_cons_of_pos (by simpa using hne), List.take_succ_eq_append_getElem hlt,
          List.append_assoc, List.singleton_append]
      · have hget : t.kept.getD t.taken 0 = 0 := by
          rw [List.getD_eq_getElem?_getD, List.getElem?_eq_none (not_lt.mp hlt)]
          rfl
        simp only [Typist.replies, Typist.step, Typist.read, if_neg hlt, hget]
        rw [List.filter_cons_of_neg (by simp)]

/-- The reads return the characters typed, in order and once each; each of them was
announced. -/
theorem keys_delivered (buffer : ℕ → ℕ) (es : List Event) :
    replies (.init buffer) es = Typist.start.replies es ∧
      (replies (.init buffer) es).filter (fun c => c ≠ 0) =
        (Typist.start.run es).kept.take (Typist.start.run es).taken ∧
      (run (.init buffer) es).notices = (Typist.start.run es).kept.length := by
  obtain ⟨hrun, hreplies⟩ := represents_run (represents_start buffer) es
  refine ⟨hreplies, ?_, hrun.buffer.notices⟩
  rw [hreplies]
  exact replies_taken .start es le_rfl hrun.buffer.nonzero

end Runs

end Vlsmc.TypedKeys
