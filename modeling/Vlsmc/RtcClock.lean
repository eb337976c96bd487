import Mathlib.Data.Nat.Bitwise

/-!
# The real-time clock

The clock chip shows the time of now in the format of its mode, one register at a time. Seconds
pass between the accesses and updates take a while, as the arguments `passing` and `waits` say.
The driver polls, reads all registers until two rounds agree, and converts.
-/

set_option autoImplicit false

namespace Vlsmc.RtcClock

section Chip

/-- What changes at most once a minute. -/
structure Moment where
  minutes : ℕ
  hours : ℕ
  day : ℕ
  month : ℕ
  year : ℕ

structure Rtc where
  binary : Bool
  hours24 : Bool
  century : Option ℕ
  ram : ℕ → ℕ
  calendar : ℕ → Moment
  now : ℕ
  busy : ℕ
  passing : ℕ → ℕ
  waits : ℕ → ℕ

variable (d : Rtc)

def Rtc.code (v : ℕ) : ℕ := if d.binary then v else v/10*16+v%10

def Rtc.hourCode (h : ℕ) : ℕ :=
  if d.hours24 then d.code h
  else d.code (if h%12 = 0 then 12 else h%12)+(if 12 ≤ h then 128 else 0)

/-- What register `r` shows at second `t`. -/
def Rtc.value (t r : ℕ) : ℕ :=
  let c := d.calendar (t/60)
  if r = 0x00 then d.code (t%60)
  else if r = 0x02 then d.code c.minutes
  else if r = 0x04 then d.hourCode c.hours
  else if r = 0x07 then d.code c.day
  else if r = 0x08 then d.code c.month
  else if r = 0x09 then d.code (c.year%100)
  else if r = 0x0B then (if d.binary then 4 else 0)+(if d.hours24 then 2 else 0)
  else if d.century = some r then d.code (c.year/100)
  else d.ram r

/-- Time passes before an access. -/
def Rtc.pass : Rtc := { d with now := d.now+d.passing 0, passing := fun i => d.passing (i+1) }

end Chip

section Driver

def readRegister (r : ℕ) (d : Rtc) : ℕ×Rtc := (d.pass.value d.pass.now r, d.pass)

/-- `is_updating`: after an update the next one may come. -/
def isUpdating (d : Rtc) : Bool×Rtc :=
  if 0 < d.busy then (true, { d.pass with busy := d.busy-1 })
  else (false, { d.pass with busy := d.waits 0, waits := fun i => d.waits (i+1) })

def bcdToBin (b : ℕ) : ℕ := b%16+b/16*10

/-- A byte that looks like a century, read one way or the other. -/
def looksCentury (v : ℕ) : Bool :=
  decide ((0x19 ≤ v ∧ v ≤ 0x21) ∨ (19 ≤ bcdToBin v ∧ bcdToBin v ≤ 21))

def detectCenturyRegister (d : Rtc) : ℕ×Rtc :=
  let a := readRegister 0x32 d
  if looksCentury a.1 then (0x32, a.2)
  else
    let b := readRegister 0x37 a.2
    if looksCentury b.1 then (0x37, b.2) else (0, b.2)

/-- `init` without the periodic interrupt: the register of the century. -/
def init (d : Rtc) : ℕ×Rtc :=
  let c := detectCenturyRegister d
  (c.1, (readRegister 0x0D c.2).2)

def registers (century : ℕ) : List ℕ :=
  [0x00, 0x02, 0x04, 0x07, 0x08, 0x09]++(if century ≠ 0 then [century] else [])

def readRegisters : List ℕ → Rtc → List ℕ×Rtc
  | [], d => ([], d)
  | r::rs, d =>
    let x := readRegister r d
    let y := readRegisters rs x.2
    (x.1::y.1, y.2)

def waitUpdate : ℕ → Rtc → Option Rtc
  | 0, _ => none
  | n+1, d => if (isUpdating d).1 then waitUpdate n (isUpdating d).2 else some (isUpdating d).2

/-- The rounds until one agrees with the round before. -/
def settle (century : ℕ) : ℕ → List ℕ → Rtc → Option (List ℕ×Rtc)
  | 0, _, _ => none
  | n+1, last, d => (waitUpdate n d).bind fun d =>
    let r := readRegisters (registers century) d
    if r.1 = last then some r else settle century n r.1 r.2

structure DateTime where
  seconds : ℕ
  minutes : ℕ
  hours : ℕ
  day : ℕ
  month : ℕ
  year : ℕ

/-- The hour of a register in a mode. -/
def convertHour (bcd hours12 : Bool) (hour : ℕ) : ℕ :=
  let h := if bcd then bcdToBin (hour%128) else hour%128
  if hours12 then
    if hour/128%2 = 1 ∧ h ≠ 12 then h+12 else if ¬hour/128%2 = 1 ∧ h = 12 then 0 else h
  else h

def convert (century regB : ℕ) (vs : List ℕ) : DateTime :=
  let bcd := decide (regB/4%2 = 0)
  let plain (i : ℕ) : ℕ := if bcd then bcdToBin (vs.getD i 0) else vs.getD i 0
  { seconds := plain 0
    minutes := plain 1
    hours := convertHour bcd (decide (regB/2%2 = 0)) (vs.getD 2 0)
    day := plain 3
    month := plain 4
    year :=
      if century ≠ 0 ∧ 19 ≤ plain 6 ∧ plain 6 ≤ 21 then plain 6*100+plain 5
      else if 70 ≤ plain 5 then 1900+plain 5 else 2000+plain 5 }

def read (n century : ℕ) (d : Rtc) : Option (DateTime×Rtc) :=
  (waitUpdate n d).bind fun d =>
    let first := readRegisters (registers century) d
    (settle century n first.1 first.2).map fun r =>
      let b := readRegister 0x0B r.2
      (convert century b.1 r.1, (readRegister 0x0D b.2).2)

def fatTime (dt : DateTime) : ℕ := (dt.hours <<< 11 ||| dt.minutes <<< 5 ||| dt.seconds/2)%65536

def fatDate (dt : DateTime) : ℕ :=
  ((if 1980 ≤ dt.year then dt.year-1980 else 0) <<< 9 ||| dt.month <<< 5 ||| dt.day)%65536

/-- The time and the date of a directory entry: `RTC::fat_time` and then `RTC::fat_date`. -/
def stamp (n century : ℕ) (d : Rtc) : Option ((ℕ×ℕ)×Rtc) :=
  (read n century d).bind fun r => (read n century r.2).map fun s => ((fatTime r.1, fatDate s.1), s.2)

/-- What the command `stat` prints for a stamp: year, month and day, then the time. -/
def statText (time date : ℕ) : (ℕ×ℕ×ℕ)×ℕ×ℕ×ℕ :=
  ((1980+(date >>> 9), date >>> 5 &&& 0xF, date &&& 0x1F),
    (time >>> 11, time >>> 5 &&& 0x3F, (time &&& 0x1F)*2))

end Driver

end Vlsmc.RtcClock
