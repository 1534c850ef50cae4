import TemplateKit.Bytes.Numeral
import TemplateKit.Date.Calendar

/-!
# Time zones

A zone is written as a name and a distance to the west of universal time, `EST5`. Behind them the
name of summer time can follow, its distance, and the two changes of a year,
`EST5EDT,M3.2.0,M11.1.0`. A zone that cannot be read is universal time; a change that cannot be read
keeps what was read of it.
-/

namespace TemplateKit

/-- The day on which the clocks are changed. -/
inductive ChangeDay where
  /-- A day from one, where the 29th of February is never counted. -/
  | fixed (day : Nat)
  | counted (day : Nat)
  /-- A day of a week of a month, where a fifth week is the last one. -/
  | weekday (month week day : Nat)
deriving DecidableEq, Repr

/-- A day and the seconds from its beginning, which may be less than zero. -/
structure ClockChange where
  day : ChangeDay := .counted 0
  time : Int := 0
deriving DecidableEq, Repr

/-- The offsets of a clock in winter and in summer, and when it changes between them. -/
structure Zone where
  standard : Int
  summer : Int
  start : ClockChange
  stop : ClockChange
deriving DecidableEq, Repr

namespace ChangeDay

/-- Steps on by weeks inside of a month of that length. -/
def stepWeeks (length : Int) : (weeks : Nat) → (day : Int) → Int
  | 0, day => day
  | weeks + 1, day => if day + 7 ≥ length then day else stepWeeks length weeks (day + 7)

/-- The day of a year, from zero. -/
def inYear (year : Int) : ChangeDay → Int
  | fixed day => if day ≥ 60 && Calendar.isLeap year then day else day - 1
  | counted day => day
  | weekday month week day =>
    let lengths := Calendar.monthLengths year
    let first : Int := day - Calendar.weekday (Calendar.dayNumber year ((month : Int) - 1) 1)
    (lengths.take (month - 1)).foldl (· + ·) 0 +
      stepWeeks (lengths[month - 1]?.getD 0) (week - 1) (if first < 0 then first + 7 else first)

end ChangeDay

namespace ClockChange

/-- The moment of a change in a year, by clocks that are `offset` seconds to the east. Days are
counted in 32 bits, and years up to 1970 are taken for that one. -/
def moment (c : ClockChange) (year offset : Int) : Int :=
  let newYear := if year > 1970 then (Calendar.firstDay year - Calendar.epoch).toInt32.toInt else 0
  (newYear + c.day.inYear year) * Calendar.daySeconds - offset + c.time

end ClockChange

namespace Zone

def universal : Zone := ⟨0, 0, {}, {}⟩

/-- Is it summer at a moment? In a year that summer does not end in, it is there at both ends. -/
def isSummer (z : Zone) (moment : Int) : Bool :=
  let year := Calendar.yearOf (Calendar.epoch + moment / Calendar.daySeconds)
  let start := z.start.moment year z.standard
  let stop := z.stop.moment year z.summer
  if start > stop then moment < stop || start ≤ moment else start ≤ moment && moment < stop

def offsetAt (z : Zone) (moment : Int) : Int := if z.isSummer moment then z.summer else z.standard

/-! ## Reading -/

/-- A number of 16 bits. One that is too large for 64 bits is the largest. -/
def readShort? (s : Bytes) : Option (Nat × Bytes) :=
  let s := s.stripLeft
  let negative := s.head? = some '-'.toUInt8
  let s := if negative || s.head? = some '+'.toUInt8 then s.drop 1 else s
  if Numeral.startsWithDigit 10 s then
    let (n, rest) := Numeral.readDigits 10 0 s
    let word : UInt16 := if n > 0xFFFFFFFFFFFFFFFF then 0xFFFF else if negative then -n.toUInt16
      else n.toUInt16
    some (word.toNat, rest)
  else none

/-- Up to `count` numbers with a mark between them, which counts only in front of a number. -/
def readNumbers (mark : UInt8) : (count : Nat) → Bytes → List Nat × Bytes
  | 0, s => ([], s)
  | count + 1, s =>
    match readShort? s with
    | none => ([], s)
    | some (n, rest) =>
      match rest with
      | [] => ([n], rest)
      | b :: more =>
        match readNumbers mark count (if b == mark then more else []) with
        | ([], _) => ([n], rest)
        | (numbers, rest) => (n :: numbers, rest)

/-- Hours, minutes and seconds, where the last two may be missing. -/
def readClock? (s : Bytes) : Option ((Nat × Nat × Nat) × Bytes) :=
  match readNumbers ':' 3 s with
  | ([], _) => none
  | (numbers, rest) => some ((numbers[0]?.getD 0, numbers[1]?.getD 0, numbers[2]?.getD 0), rest)

/-- What follows the name of a zone, which is three letters or more; in angle brackets it may have
digits and signs. -/
def afterName? (s : Bytes) : Option Bytes :=
  let letters := s.takeWhile Ascii.isAlpha
  if letters.length ≥ 3 then some (s.drop letters.length)
  else
    match s with
    | 60 :: s =>
      let name := s.takeWhile fun b =>
        Ascii.isAlpha b || Ascii.isDigit b || b == '+' || b == '-'
      match s.drop name.length with
      | 62 :: rest => if name.length ≥ 3 then some rest else none
      | _ => none
    | _ => none

/-- An offset, none if there is no number. West is positive here, and the parts are limited. -/
def readOffset (s : Bytes) : Option Int × Bytes :=
  let east := s.head? = some '-'.toUInt8
  let s := if east || s.head? = some '+'.toUInt8 then s.drop 1 else s
  match readClock? s with
  | none => (none, s)
  | some ((hours, minutes, seconds), rest) =>
    let distance : Int := min hours 24 * 3600 + min minutes 59 * 60 + min seconds 59
    (some (if east then distance else -distance), rest)

/-- A day of change and what follows it, if it is one; at the end of the text it is the usual day.
-/
def readDay (usual : ChangeDay) (s : Bytes) : ChangeDay × Option Bytes :=
  match s with
  | [] => (usual, some [])
  | 74 :: s =>
    let (day, rest) := Numeral.readDigits 10 0 s
    if Numeral.startsWithDigit 10 s && 1 ≤ day && day ≤ 365 then (.fixed day, some rest)
    else (.fixed 0, none)
  | 77 :: s =>
    let (numbers, rest) := readNumbers '.' 3 s
    let month := numbers[0]?.getD 0
    let week := numbers[1]?.getD 0
    let day := numbers[2]?.getD 0
    let valid := numbers.length == 3 && 1 ≤ month && month ≤ 12 && 1 ≤ week && week ≤ 5 && day ≤ 6
    (.weekday month week day, if valid then some rest else none)
  | s =>
    let (day, rest) := Numeral.readDigits 10 0 s
    if Numeral.startsWithDigit 10 s && day ≤ 365 then (.counted day, some rest)
    else (.counted 0, none)

def usualTime : Int := 7200

/-- When a clock is changed, behind a comma; no rest is left where the day cannot be read. -/
def readChange (usual : ChangeDay) (s : Bytes) : ClockChange × Option Bytes :=
  match readDay usual (if s.head? = some ','.toUInt8 then s.drop 1 else s) with
  | (day, none) => (⟨day, 0⟩, none)
  | (day, some []) => (⟨day, usualTime⟩, some [])
  | (day, some (b :: rest)) =>
    if b == ',' then (⟨day, usualTime⟩, some (b :: rest))
    else if b == '/' && !rest.isEmpty then
      let early := rest.head? = some '-'.toUInt8
      let rest := if early then rest.drop 1 else rest
      let (time, rest) : Int × Bytes :=
        match readClock? rest with
        | none => (usualTime, rest)
        | some ((hours, minutes, seconds), rest) => (hours * 3600 + minutes * 60 + seconds, rest)
      (⟨day, if early then -time else time⟩, some rest)
    else (⟨day, 0⟩, none)

def usualStart : ChangeDay := .weekday 3 2 0

def usualStop : ChangeDay := .weekday 11 1 0

/-- The two changes of a year; the second is read only behind a first one. -/
def readChanges (s : Bytes) : ClockChange × ClockChange :=
  match readChange usualStart s with
  | (start, none) => (start, {})
  | (start, some rest) => (start, (readChange usualStop rest).1)

def room : Nat := 512

/-- Reads a zone. Behind the standard distance, changes count even without a name of summer time,
which is universal time then. -/
def parse (text : Bytes) : Zone :=
  let s := text.take room
  match afterName? (if s.head? = some ':'.toUInt8 then s.drop 1 else s) with
  | none => universal
  | some s =>
    if s.head?.any fun b => b == '+'.toUInt8 || b == '-'.toUInt8 || Ascii.isDigit b then
      match readOffset s with
      | (none, _) => universal
      | (some standard, []) => ⟨standard, standard, {}, {}⟩
      | (some standard, s) =>
        let (summer, s) :=
          match afterName? s with
          | none => (0, s)
          | some s =>
            let (summer, s) := readOffset s
            (summer.getD (standard + 3600), s)
        let (start, stop) := readChanges s
        ⟨standard, summer, start, stop⟩
    else universal

end Zone

end TemplateKit
