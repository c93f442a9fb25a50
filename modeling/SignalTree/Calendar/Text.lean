import SignalTree.Calendar
import SignalTree.Numeral.Integer
import SignalTree.Text.Blank

/-!
# Text — moments as text

* `Calendar.writeMoment`: `YYYY-MM-DD`, followed by `THH:MM:SS` and a fraction unless the time is
  midnight;
* `Calendar.readMoment`: reads the long form, and if that fails the short one.

Each number of a date is read with `readField`: blanks in front are skipped, the digits may be
fewer than written, and a number that no date or time has is refused on the spot.  Whether the
numbers make a date is checked when all of them are there.
-/

namespace SignalTree
namespace Calendar

/-! ## Writing -/

/-- Digits with zeros in front up to a width. -/
def padded (width n : Nat) : List Char :=
  let ds := Numeral.digits n
  List.replicate (width - ds.length) '0' ++ ds

/-- A year: four digits, and a sign outside the years 0 to 9999. -/
def writeYear (year : Int) : List Char :=
  if year < 0 then '-' :: padded 4 year.natAbs
  else if 9999 < year then '+' :: padded 4 year.natAbs
  else padded 4 year.natAbs

/-- A fraction of a second: nothing, or three, six or nine digits. -/
def writeFraction (nano : Nat) : List Char :=
  if nano = 0 then []
  else if nano % 1000000 = 0 then '.' :: padded 3 (nano / 1000000)
  else if nano % 1000 = 0 then '.' :: padded 6 (nano / 1000)
  else '.' :: padded 9 nano

def writeDay (d : Day) : List Char :=
  writeYear d.year ++ '-' :: (padded 2 d.month ++ '-' :: padded 2 d.day)

/-- A time of day; a leap second has the number after that of its second. -/
def writeClock (c : Clock) : List Char :=
  padded 2 c.hour ++ ':' :: (padded 2 c.minute ++ ':' ::
    (padded 2 (c.second + c.nano / secondNanos) ++ writeFraction (c.nano % secondNanos)))

/-- A moment; midnight is left out. -/
def writeMoment (m : Moment) : List Char :=
  if m.clock = midnight then writeDay m.day else writeDay m.day ++ 'T' :: writeClock m.clock

/-! ## Reading -/

/-- Why a text is not a date. -/
inductive Fault where
  | outOfRange
  | invalid
  | tooShort
  | trailing
deriving DecidableEq, Repr

def Fault.message : Fault → String
  | .outOfRange => "input is out of range"
  | .invalid => "input contains invalid characters"
  | .tooShort => "premature end of input"
  | .trailing => "trailing input"

/-- A reader takes something from the front and leaves the rest. -/
abbrev Reader (α : Type) := List Char → Except Fault (α × List Char)

/-- A number of at most `most` digits. -/
def readNumber (most : Nat) : Reader Nat := fun cs =>
  let ds := (cs.take most).takeWhile Char.isDigit
  if ds.isEmpty then .error (if cs.isEmpty then .tooShort else .invalid)
  else
    let n := Numeral.value 0 ds
    if Numeral.maxSigned < n then .error .outOfRange else .ok (n, cs.drop ds.length)

def readMark (mark : Char) : Reader Unit
  | [] => .error .tooShort
  | c :: rest => if c = mark then .ok ((), rest) else .error .invalid

/-- A two-digit number between two bounds. -/
def readField (least greatest : Nat) : Reader Nat := fun cs => do
  let (n, rest) ← readNumber 2 (Text.trimLeft cs)
  if least ≤ n && n ≤ greatest then .ok (n, rest) else .error .outOfRange

/-- A year: four digits at most, or a sign and any number of digits. -/
def readYear : Reader Int := fun cs => do
  let (year, rest) ← match Text.trimLeft cs with
    | '-' :: signed => do
      let (n, rest) ← readNumber signed.length signed
      .ok (-(n : Int), rest)
    | '+' :: signed => do
      let (n, rest) ← readNumber signed.length signed
      .ok ((n : Int), rest)
    | unsigned => do
      let (n, rest) ← readNumber 4 unsigned
      .ok ((n : Int), rest)
  if -0x80000000 ≤ year && year < 0x80000000 then .ok (year, rest) else .error .outOfRange

def readDayNumbers : Reader (Int × Nat × Nat) := fun cs => do
  let (year, cs) ← readYear cs
  let (_, cs) ← readMark '-' cs
  let (month, cs) ← readField 1 12 cs
  let (_, cs) ← readMark '-' cs
  let (day, cs) ← readField 1 31 cs
  .ok ((year, month, day), cs)

/-- A fraction of a second in nanoseconds; digits after the ninth are passed over. -/
def readFraction : Reader Nat
  | '.' :: rest => do
    let (n, after) ← readNumber 9 rest
    let width := rest.length - after.length
    .ok (n * Nat.pow 10 (9 - width), after.dropWhile Char.isDigit)
  | cs => .ok (0, cs)

def readClockNumbers : Reader (Nat × Nat × Nat × Nat) := fun cs => do
  let (hour, cs) ← readField 0 23 cs
  let (_, cs) ← readMark ':' cs
  let (minute, cs) ← readField 0 59 cs
  let (_, cs) ← readMark ':' cs
  let (second, cs) ← readField 0 60 cs
  let (nano, cs) ← readFraction cs
  .ok ((hour, minute, second, nano), cs)

/-- The day with these numbers, if the calendar has it. -/
def Day.ofNumbers (numbers : Int × Nat × Nat) : Except Fault Day :=
  if h : IsDay numbers.1 numbers.2.1 numbers.2.2 then .ok ⟨_, _, _, h⟩ else .error .outOfRange

/-- The time of day with these numbers, if there is one.  The sixtieth second is the leap second
after the one before it. -/
def Clock.ofNumbers : Nat × Nat × Nat × Nat → Except Fault Clock
  | (hour, minute, number, fraction) =>
    let second := if number = 60 then 59 else number
    let nano := if number = 60 then secondNanos + fraction else fraction
    if h : IsClock hour minute second nano then .ok ⟨hour, minute, second, nano, h⟩
    else .error .outOfRange

def readEnd (cs : List Char) : Except Fault Unit :=
  if cs.isEmpty then .ok () else .error .trailing

def readDay (cs : List Char) : Except Fault Day := do
  let (numbers, cs) ← readDayNumbers cs
  readEnd cs
  Day.ofNumbers numbers

def readLong (cs : List Char) : Except Fault Moment := do
  let (dayNumbers, cs) ← readDayNumbers cs
  let (_, cs) ← readMark 'T' cs
  let (clockNumbers, cs) ← readClockNumbers cs
  readEnd cs
  let day ← Day.ofNumbers dayNumbers
  let clock ← Clock.ofNumbers clockNumbers
  .ok ⟨day, clock⟩

/-- Reads a moment.  A fault is that of the short form. -/
def readMoment (cs : List Char) : Except Fault Moment :=
  match readLong cs with
  | .ok m => .ok m
  | .error _ => (readDay cs).map Day.start

end Calendar
end SignalTree
