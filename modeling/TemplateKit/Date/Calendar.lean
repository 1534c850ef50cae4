/-!
# The calendar

Days are numbered from the first of January of the year one, which is day zero. Months and days of
the year count from zero, days of the month from one, and Sunday is day zero of the week.
-/

namespace TemplateKit.Calendar

def isLeap (year : Int) : Bool := year % 4 == 0 && (year % 100 != 0 || year % 400 == 0)

def monthLengths (year : Int) : List Int :=
  [31, if isLeap year then 29 else 28, 31, 30, 31, 30, 31, 31, 30, 31, 30, 31]

def firstDay (year : Int) : Int :=
  let before := year - 1
  365 * before + before / 4 - before / 100 + before / 400

/-- The number of a day; a month outside of the year counts on from it, and so does a day. -/
def dayNumber (year month day : Int) : Int :=
  let year := year + month / 12
  firstDay year + ((monthLengths year).take (month % 12).toNat).foldl (· + ·) 0 + (day - 1)

/-- The year of a day: whole spans of 400, 100, 4 and one years are taken away in turn. -/
def yearOf (n : Int) : Int :=
  let inFour := n % 146097
  let centuries := min 3 (inFour / 36524)
  let inCentury := inFour - centuries * 36524
  let inLeap := inCentury % 1461
  400 * (n / 146097) + 100 * centuries + 4 * (inCentury / 1461) + min 3 (inLeap / 365) + 1

/-- The month and the day of the month that a day of the year is in, given the lengths of the
months. -/
def monthAndDay (yearDay : Int) : List Int → Int × Int
  | [] => (0, yearDay + 1)
  | length :: more =>
    if yearDay < length then (0, yearDay + 1)
    else
      let (month, day) := monthAndDay (yearDay - length) more
      (month + 1, day)

def weekday (n : Int) : Int := (n + 1) % 7

def daySeconds : Int := 86400

def epoch : Int := firstDay 1970

end TemplateKit.Calendar
