import TemplateKit.Date.Zone

/-!
# Dates with a time of day

A moment is a number of seconds since the beginning of 1970 in universal time. In a zone it has a
date and a time of day, as long as its year has a number of 32 bits.
-/

namespace TemplateKit

/-- A moment in parts. Years count from 1900, months and weekdays from zero; the offset is that of
the local clock in seconds. -/
structure DateTime where
  year : Int
  month : Int
  day : Int
  hour : Int
  minute : Int
  second : Int
  weekday : Int
  yearDay : Int
  offset : Int
deriving DecidableEq, Repr

namespace DateTime

/-- The parts of a moment on a clock that is off by so many seconds. -/
def atOffset (moment offset : Int) : DateTime :=
  let here := moment + offset
  let day := Calendar.epoch + here / Calendar.daySeconds
  let seconds := here % Calendar.daySeconds
  let year := Calendar.yearOf day
  let yearDay := day - Calendar.firstDay year
  let (month, monthDay) := Calendar.monthAndDay yearDay (Calendar.monthLengths year)
  { year := year - 1900, month, day := monthDay, hour := seconds / 3600,
    minute := seconds / 60 % 60,
    second := seconds % 60, weekday := Calendar.weekday day, yearDay, offset }

def fits (d : DateTime) : Bool := d.year.toInt32.toInt == d.year

def ofMoment? (z : Zone) (moment : Int) : Option DateTime :=
  let here := atOffset moment (z.offsetAt moment)
  if (atOffset moment 0).fits && here.fits then some here else none

/-- Puts a date in the place of another one. If its year does not fit, the low bits of the year, the
time of day and the day of the week are all that is put there. -/
def onto (d under : DateTime) : DateTime :=
  if d.fits then d
  else { under with
    year := d.year.toInt32.toInt, hour := d.hour, minute := d.minute, second :=
      d.second, weekday := d.weekday,
    offset := d.offset }

/-- The date and time of a moment in a zone: first in universal time, then by the distance that
holds there. -/
def ofMoment (z : Zone) (moment : Int) : DateTime :=
  let there := atOffset moment 0
  let first := there.onto ⟨0, 0, 0, 0, 0, 0, 0, 0, 0⟩
  if there.fits then (atOffset moment (z.offsetAt moment)).onto first else first

/-- The nearest moment that has a date, between one that has and one that has none. -/
def nearestDated (z : Zone) : (fuel : Nat) → (dated other : Int) → Int
  | 0, dated, _ => dated
  | fuel + 1, dated, other =>
    let middle := (dated + other) / 2
    if middle = dated ∨ middle = other then dated
    else if (ofMoment? z middle).isSome then nearestDated z fuel middle other
    else nearestDated z fuel dated middle

def dated (z : Zone) (moment : Int) : Int :=
  if (ofMoment? z moment).isSome then moment else nearestDated z 64 0 moment

/-- Looks for the moment at which clocks show `wanted`, the seconds since the beginning of 1970, by
correcting a guess by its error. Where clocks are put forward no moment may do: then guesses take
turns, and one in summer is taken if there is one. -/
def search? (z : Zone) (wanted : Int) : (tries : Nat) → (guess last beforeLast : Int) →
    (wasSummer : Bool) → Option Int
  | 0, _, _, _, _ => none
  | tries + 1, guess, last, beforeLast, wasSummer =>
    let guess := dated z guess
    let error := wanted - (guess + z.offsetAt guess)
    let summer := z.isSummer guess
    if error = 0 ∨ (guess = beforeLast ∧ guess ≠ last ∧ (wasSummer → summer)) then some guess
    else search? z wanted tries (guess + error) guess last summer

/-- What clocks show, in seconds since the beginning of 1970; fields outside of their range count
on. -/
def shown (d : DateTime) : Int :=
  (Calendar.dayNumber (d.year + 1900) d.month d.day - Calendar.epoch) * Calendar.daySeconds +
    d.hour * 3600 + d.minute * 60 + d.second

/-- The moment of a date and time in a zone. Seconds outside of a minute are added when the moment
of the minute is known. -/
def toMoment? (d : DateTime) (z : Zone) : Option Int :=
  let second := max 0 (min 59 d.second)
  let wanted := { d with second }.shown
  (search? z wanted 6 wanted wanted wanted false).bind fun moment =>
    let moment := moment + (d.second - second)
    (ofMoment? z moment).map fun _ => moment

end DateTime

end TemplateKit
