import TemplateKit.Date.DateTime

/-!
# Dates in the headers of requests

A date in a header starts with the day of the week and has one of three forms:

* `Sun, 06 Nov 1994 08:49:37 GMT`
* `Sunday, 06-Nov-94 08:49:37 GMT`, where a year below 70 is in the next century
* `Sun Nov  6 08:49:37 1994`

Fields are read until one is missing; the rest are zero.
-/

namespace TemplateKit

/-- A date as a header gives it. Nothing is said about its parts fitting together. -/
structure HeaderDate where
  year : Int
  /-- From zero, and less for a name that no month has. -/
  month : Int
  day : Int
  hour : Int
  minute : Int
  second : Int
deriving DecidableEq, Repr

namespace HeaderDate

def monthNames : List Bytes :=
  ["Jan", "Feb", "Mar", "Apr", "May", "Jun", "Jul", "Aug", "Sep", "Oct", "Nov", "Dec"].map ascii

/-- The number of the month with a name, in this case only. -/
def monthOf (name : Bytes) : Int :=
  match monthNames.findIdx? (· == name) with
  | some k => k
  | none => -1

/-- What is left to be read. After a part that could not be read all others are zero or empty. -/
abbrev Rest := Option Bytes

/-- A number behind blanks, zero if there is none. -/
def readNumber (rest : Rest) : Int × Rest :=
  match rest.bind (Numeral.read? false) with
  | some (n, rest) => (n.toInt32.toInt, some rest)
  | none => (0, none)

/-- A word of at most so many bytes behind blanks. -/
def readWord (limit : Nat) (rest : Rest) : Bytes × Rest :=
  let s := (rest.getD []).stripLeft
  let word := (s.take limit).takeWhile (!Ascii.isSpace ·)
  if word.isEmpty then ([], none) else (word, some (s.drop word.length))

/-- A colon right at the front. -/
def readColon (rest : Rest) : Rest :=
  match rest with
  | some (58 :: rest) => some rest
  | _ => none

/-- Hours, minutes and seconds with colons between them. -/
def readTime (rest : Rest) : (Int × Int × Int) × Rest :=
  let (hour, rest) := readNumber rest
  let (minute, rest) := readNumber (readColon rest)
  let (second, rest) := readNumber (readColon rest)
  ((hour, minute, second), rest)

def fullYear (n : Int) : Int := if n < 70 then n + 2000 else n + 1900

/-- A date such as `Nov  6 08:49:37 1994`. -/
def readMonthFirst (s : Bytes) : HeaderDate :=
  let (month, rest) := readWord 25 (some s)
  let (day, rest) := readNumber rest
  let ((hour, minute, second), rest) := readTime rest
  let (year, _) := readNumber rest
  ⟨year, monthOf month, day, hour, minute, second⟩

/-- A date such as `06-Nov-94 08:49:37`; its parts stand at fixed places. -/
def readDashed (s : Bytes) : HeaderDate :=
  let (date, rest) := readWord s.length (some s)
  let ((hour, minute, second), _) := readTime rest
  ⟨fullYear (Numeral.toInt32 (date.drop 7)).toInt, monthOf ((date.drop 3).take 3),
    (Numeral.toInt32 (date.take 2)).toInt, hour, minute, second⟩

/-- A date such as `06 Nov 1994 08:49:37`. -/
def readDayFirst (s : Bytes) : HeaderDate :=
  let (day, rest) := readNumber (some s)
  let (month, rest) := readWord s.length rest
  let (year, rest) := readNumber rest
  let ((hour, minute, second), _) := readTime rest
  ⟨year, monthOf month, day, hour, minute, second⟩

/-- The date behind the first blank, none without one. The form is told from its first bytes. -/
def parse? (s : Bytes) : Option HeaderDate :=
  match Bytes.stripLeft (s.dropWhile (· != 32)) with
  | [] => if s.elem 32 then some (readDayFirst []) else none
  | b :: rest =>
    some (if Ascii.isAlpha b then readMonthFirst (b :: rest)
      else if rest[1]? = some '-'.toUInt8 then readDashed (b :: rest)
      else readDayFirst (b :: rest))

def fields (d : HeaderDate) : List Int := [d.year, d.month, d.day, d.hour, d.minute, d.second]

end HeaderDate

namespace DateTime

def fields (d : DateTime) : List Int := [d.year + 1900, d.month, d.day, d.hour, d.minute, d.second]

/-- Does the first field that differs make the first list the lower one? Equal lists do not differ.
-/
def notAfterFields : List Int → List Int → Bool
  | a :: s, b :: t => if a = b then notAfterFields s t else a < b
  | _, _ => true

/-- Is a date of modification not after the date of a header? It is after everything that is no
date. -/
def notAfter (d : DateTime) (header : Bytes) : Bool :=
  match HeaderDate.parse? header with
  | some h => notAfterFields d.fields h.fields
  | none => false

end DateTime

end TemplateKit
