import TemplateKit.Bytes.Basic

/-!
# Values with attributes

The values of some headers are followed by attributes, each behind a semicolon: `text/html;
charset=utf-8`. An attribute without an equals sign has an empty value, and a value may stand
between double quotes.
-/

namespace TemplateKit.ContentType

def semicolon : UInt8 := ';'

def equals : UInt8 := '='

def quote : UInt8 := '"'

def inName (b : UInt8) : Bool := !Ascii.isSpace b && b != semicolon && b != equals

def inPlainValue (b : UInt8) : Bool := !Ascii.isSpace b && b != semicolon

/-- The value of an attribute, in quotes or up to a separator, and what follows it. -/
def attributeValue (s : Bytes) : Bytes × Bytes :=
  match s with
  | 34 :: s => (s.takeWhile (· != quote), (s.dropWhile (· != quote)).drop 1)
  | s => (s.takeWhile inPlainValue, s.dropWhile inPlainValue)

/-- The attributes in the order in which they stand. Blanks may stand around an equals sign;
anything else that follows a name ends the list. `fuel` bounds its length. -/
def attributes : (fuel : Nat) → Bytes → List (Bytes × Bytes)
  | 0, _ => []
  | fuel + 1, s =>
    match s.stripLeft with
    | [] => []
    | s =>
      let name := s.takeWhile inName
      match Bytes.stripLeft (s.dropWhile inName) with
      | [] => [(name, [])]
      | b :: rest =>
        if b == equals then
          let (value, rest) := attributeValue (Bytes.stripLeft rest)
          (name, value) :: attributes fuel (rest.drop 1)
        else if b == semicolon then (name, []) :: attributes fuel rest
        else []

/-- The parts of a content type by the names below the header in the data tree, the type itself
first. -/
def parts (s : Bytes) : List (Bytes × Bytes) :=
  let s := s.stripLeft
  let type := s.takeWhile (· != semicolon)
  ("Type", type) :: attributes s.length ((s.dropWhile (· != semicolon)).drop 1)

def firstWord? (s : Bytes) : Option Bytes :=
  let word := s.stripLeft.takeWhile inPlainValue
  if word.isEmpty then none else some word

/-- The value of an attribute. Blanks may stand in front of an equals sign only, and a name at the
end of the text is none. -/
def attribute? (wanted : Bytes) : (fuel : Nat) → Bytes → Option Bytes
  | 0, _ => none
  | fuel + 1, s =>
    match s.stripLeft with
    | [] => none
    | s =>
      let name := s.takeWhile inName
      let found := Bytes.equalsNoCase name wanted
      match s.dropWhile inName with
      | [] => none
      | s =>
        match Bytes.stripLeft s with
        | [] => none
        | b :: rest =>
          if b == equals then
            let (value, rest) := attributeValue rest
            if found then some value else attribute? wanted fuel (rest.drop 1)
          else if b == semicolon then
            if found then some [] else attribute? wanted fuel rest
          else none

def attributeOf? (wanted header : Bytes) : Option Bytes :=
  attribute? wanted header.length ((header.dropWhile (· != semicolon)).drop 1)

end TemplateKit.ContentType
