/-!
# Calendar — days and times of day

Dates follow the Gregorian calendar, also before its introduction and without end but for a
fixed range of years; year 0 is the year before year 1.  A time of day counts nanoseconds.  A leap
second is what comes after a second and before the next one: there the count of nanoseconds runs on.
It may come after any second.  Both structures carry the proof that they are in range.

In a text a leap second has the number after that of its second.  After the last second of a minute
this is sixty, a number of its own; after another one it is the number of the next second.
-/

namespace SignalTree
namespace Calendar

/-- Whether a year has a 29th of February. -/
def isLeap (year : Int) : Bool := year % 4 == 0 && (year % 100 != 0 || year % 400 == 0)

def daysIn (year : Int) (month : Nat) : Nat :=
  if month = 2 then (if isLeap year then 29 else 28)
  else if month = 4 || month = 6 || month = 9 || month = 11 then 30
  else 31

def firstYear : Int := -262143

def lastYear : Int := 262142

/-- What the numbers of a date have to satisfy. -/
def IsDay (year : Int) (month day : Nat) : Prop :=
  firstYear ≤ year ∧ year ≤ lastYear ∧ 1 ≤ month ∧ month ≤ 12 ∧ 1 ≤ day ∧ day ≤ daysIn year month

instance (year : Int) (month day : Nat) : Decidable (IsDay year month day) := by
  unfold IsDay; infer_instance

/-- A day of the calendar. -/
structure Day where
  year : Int
  month : Nat
  day : Nat
  valid : IsDay year month day
deriving DecidableEq

/-- The nanoseconds of a second. -/
def secondNanos : Nat := 1000000000

/-- What the numbers of a time of day have to satisfy.  From `secondNanos` on, the nanoseconds are
those of a leap second. -/
def IsClock (hour minute second nano : Nat) : Prop :=
  hour < 24 ∧ minute < 60 ∧ second < 60 ∧ nano < 2 * secondNanos

instance (hour minute second nano : Nat) : Decidable (IsClock hour minute second nano) := by
  unfold IsClock; infer_instance

/-- A time of day. -/
structure Clock where
  hour : Nat
  minute : Nat
  second : Nat
  nano : Nat
  valid : IsClock hour minute second nano
deriving DecidableEq

/-- The start of a day. -/
def midnight : Clock := ⟨0, 0, 0, 0, by decide⟩

/-- A day with a time of day. -/
structure Moment where
  day : Day
  clock : Clock
deriving DecidableEq

def Day.start (day : Day) : Moment := ⟨day, midnight⟩

/-- The first day of the year 1970. -/
def epoch : Day := ⟨1970, 1, 1, by decide⟩

end Calendar
end SignalTree
