import Vlsmc.DropOldest

/-!
# The keyboard driver

`process_scancode` decodes the bytes of scan code set 1 and puts characters into a ring
of 256 places, of which one stays free; `get_char_nonblocking` takes them out. A `char` is
its byte. Every character put in is announced once on the driver's event channel.
-/

set_option autoImplicit false

namespace Vlsmc.KeyboardDriver

section Layouts

def codes (l : List Char) : List ℕ := l.map Char.toNat

/-- F1 to F10, NumLock, ScrollLock and the number pad. -/
def keypad : List ℕ :=
  List.replicate 12 0++codes ['7', '8', '9', '-', '4', '5', '6', '+', '1', '2', '3', '0', '.']

def kbdUsQwerty : List ℕ :=
  [0, 27]++codes ['1', '2', '3', '4', '5', '6', '7', '8', '9', '0', '-', '=']++[8, 9]++
  codes ['q', 'w', 'e', 'r', 't', 'y', 'u', 'i', 'o', 'p', '[', ']']++[10, 0]++
  codes ['a', 's', 'd', 'f', 'g', 'h', 'j', 'k', 'l', ';']++[39, 96, 0, 92]++
  codes ['z', 'x', 'c', 'v', 'b', 'n', 'm', ',', '.', '/']++[0, 42, 0, 32, 0]++keypad

def kbdUsQwertyShift : List ℕ :=
  [0, 27]++codes ['!', '@', '#', '$', '%', '^', '&', '*', '(', ')', '_', '+']++[8, 9]++
  codes ['Q', 'W', 'E', 'R', 'T', 'Y', 'U', 'I', 'O', 'P']++[123, 125, 10, 0]++
  codes ['A', 'S', 'D', 'F', 'G', 'H', 'J', 'K', 'L', ':']++[34, 126, 0, 124]++
  codes ['Z', 'X', 'C', 'V', 'B', 'N', 'M', '<', '>', '?']++[0, 42, 0, 32, 0]++keypad

def kbdUsDvorak : List ℕ :=
  [0, 27]++codes ['1', '2', '3', '4', '5', '6', '7', '8', '9', '0', '[', ']']++[8, 9, 39]++
  codes [',', '.', 'p', 'y', 'f', 'g', 'c', 'r', 'l', '/', '=']++[10, 0]++
  codes ['a', 'o', 'e', 'u', 'i', 'd', 'h', 't', 'n', 's', '-']++[96, 0, 92]++
  codes [';', 'q', 'j', 'k', 'x', 'b', 'm', 'w', 'v', 'z']++[0, 42, 0, 32, 0]++keypad

def kbdUsDvorakShift : List ℕ :=
  [0, 27]++codes ['!', '@', '#', '$', '%', '^', '&', '*', '(', ')']++[123, 125, 8, 9, 34]++
  codes ['<', '>', 'P', 'Y', 'F', 'G', 'C', 'R', 'L', '?', '+']++[10, 0]++
  codes ['A', 'O', 'E', 'U', 'I', 'D', 'H', 'T', 'N', 'S', '_']++[126, 0, 124]++
  codes [':', 'Q', 'J', 'K', 'X', 'B', 'M', 'W', 'V', 'Z']++[0, 42, 0, 32, 0]++keypad

def mapNormal (layout : ℕ) : List ℕ := if layout = 0 then kbdUsQwerty else kbdUsDvorak

def mapShift (layout : ℕ) : List ℕ := if layout = 0 then kbdUsQwertyShift else kbdUsDvorakShift

/-- The tables have 128 places; those not written are zero. -/
def charAt (map : List ℕ) (makeCode : ℕ) : ℕ := map.getD makeCode 0

end Layouts

structure Keyboard where
  shiftPressed : Bool
  ctrlPressed : Bool
  altPressed : Bool
  capsLockActive : Bool
  currentLayout : ℕ
  extendedKey : Bool
  charBuffer : ℕ → ℕ
  bufferHead : ℕ
  bufferTail : ℕ
  /-- How often `EventSystem::push(kbd_channel_id_, 1)` was called. -/
  notices : ℕ

namespace Keyboard

def init (buffer : ℕ → ℕ) : Keyboard where
  shiftPressed := false
  ctrlPressed := false
  altPressed := false
  capsLockActive := false
  currentLayout := 0
  extendedKey := false
  charBuffer := buffer
  bufferHead := 0
  bufferTail := 0
  notices := 0

def store (k : Keyboard) (c : ℕ) : Keyboard :=
  let nextHead := (k.bufferHead+1)%256
  if nextHead ≠ k.bufferTail then
    { k with
      charBuffer := fun i => if i = k.bufferHead then c else k.charBuffer i
      bufferHead := nextHead
      notices := k.notices+1 }
  else k

/-- A byte behind the prefix `0xE0`: only the arrows up and down have a meaning. -/
def extended (k : Keyboard) (scancode : ℕ) : Keyboard :=
  let k := { k with extendedKey := false }
  if 128 ≤ scancode then k
  else
    let special := if scancode = 0x50 then 0x81 else if scancode = 0x48 then 0x80 else 0
    if special ≠ 0 then k.store special else k

def isLetter (baseChar : ℕ) : Bool := 97 ≤ baseChar ∧ baseChar ≤ 122

/-- The translation of a make code, at the end of `process_scancode`. -/
def translate (k : Keyboard) (makeCode : ℕ) : Keyboard :=
  let normal := charAt (mapNormal k.currentLayout) makeCode
  let shift := charAt (mapShift k.currentLayout) makeCode
  let letter := isLetter normal
  let ascii :=
    if k.shiftPressed then (if k.capsLockActive && letter then normal else shift)
    else if k.capsLockActive && letter then shift else normal
  if ascii ≠ 0 then
    k.store (if k.ctrlPressed && letter then (ascii+160)%256 else ascii)
  else k

def processScancode (k : Keyboard) (scancode : ℕ) : Keyboard :=
  if scancode = 0xE0 then { k with extendedKey := true }
  else if k.extendedKey then k.extended scancode
  else
    let isRelease : Bool := 128 ≤ scancode
    let makeCode := scancode%128
    if makeCode = 0x2A ∨ makeCode = 0x36 then { k with shiftPressed := !isRelease }
    else if makeCode = 0x1D then { k with ctrlPressed := !isRelease }
    else if makeCode = 0x38 then { k with altPressed := !isRelease }
    else if makeCode = 0x3A ∧ isRelease = false then
      { k with capsLockActive := !k.capsLockActive }
    else if k.altPressed = true ∧ k.shiftPressed = true ∧ isRelease = false then
      { k with currentLayout := (k.currentLayout+1)%2 }
    else if 0x3B ≤ makeCode ∧ makeCode ≤ 0x44 ∧ isRelease = false then k
    else if isRelease then k
    else k.translate makeCode

/-- Zero when there is no character. -/
def getCharNonblocking (k : Keyboard) : ℕ × Keyboard :=
  if k.bufferHead = k.bufferTail then (0, k)
  else (k.charBuffer k.bufferTail, { k with bufferTail := (k.bufferTail+1)%256 })

end Keyboard

/-- An interrupt with the byte it finds, or a read. -/
inductive Event
  | scancode (byte : ℕ)
  | read
deriving DecidableEq

def step (k : Keyboard) : Event → Keyboard
  | .scancode byte => k.processScancode byte
  | .read => k.getCharNonblocking.2

def run (k : Keyboard) (es : List Event) : Keyboard := es.foldl step k

/-- What the reads of a run return. -/
def replies : Keyboard → List Event → List ℕ
  | _, [] => []
  | k, .scancode byte::es => replies (k.processScancode byte) es
  | k, .read::es => k.getCharNonblocking.1::replies k.getCharNonblocking.2 es

end Vlsmc.KeyboardDriver
