/-!
# Byte strings

Every text in this library is a list of bytes, and no encoding is assumed. Letters, digits and
blanks are those of ASCII; a byte from 0x80 up belongs to no class and has no other case.
-/

namespace TemplateKit

/-- Texts are bytes; nothing is said about their encoding. -/
abbrev Bytes := List UInt8

def ascii (s : String) : Bytes := s.toList.map Char.toUInt8

instance asciiCoe : Coe String Bytes := ⟨ascii⟩

instance byteCoe : Coe Char UInt8 := ⟨Char.toUInt8⟩

namespace Ascii

def isSpace (b : UInt8) : Bool := b == 32 || (9 ≤ b && b ≤ 13)

def isDigit (b : UInt8) : Bool := 48 ≤ b && b ≤ 57

def isUpper (b : UInt8) : Bool := 65 ≤ b && b ≤ 90

def isLower (b : UInt8) : Bool := 97 ≤ b && b ≤ 122

def isAlpha (b : UInt8) : Bool := isUpper b || isLower b

def isAlnum (b : UInt8) : Bool := isAlpha b || isDigit b

def isPrint (b : UInt8) : Bool := 32 ≤ b && b ≤ 126

def isControl (b : UInt8) : Bool := b < 32 || b == 127

def isHexDigit (b : UInt8) : Bool := isDigit b || (65 ≤ b && b ≤ 70) || (97 ≤ b && b ≤ 102)

def toLower (b : UInt8) : UInt8 := if isUpper b then b + 32 else b

def toUpper (b : UInt8) : UInt8 := if isLower b then b - 32 else b

/-- The value of a digit of base 16, in either case. -/
def digitValue? (b : UInt8) : Option Nat :=
  if isDigit b then some (b.toNat - 48)
  else if 97 ≤ b && b ≤ 102 then some (b.toNat - 87)
  else if 65 ≤ b && b ≤ 70 then some (b.toNat - 55)
  else none

def hexDigit (n : Nat) : UInt8 :=
  if n < 10 then (48 + n).toUInt8 else (55 + n).toUInt8

def hexPair (b : UInt8) : Bytes := [hexDigit (b.toNat / 16), hexDigit (b.toNat % 16)]

end Ascii

namespace Bytes

def lower (s : Bytes) : Bytes := s.map Ascii.toLower

def upper (s : Bytes) : Bytes := s.map Ascii.toUpper

def untilNul (s : Bytes) : Bytes := s.takeWhile (· != 0)

def stripLeft (s : Bytes) : Bytes := s.dropWhile Ascii.isSpace

def stripRight (s : Bytes) : Bytes := (s.reverse.dropWhile Ascii.isSpace).reverse

def strip (s : Bytes) : Bytes := stripLeft (stripRight s)

/-- What follows a given beginning, if the text has it. -/
def dropPrefix? : (p s : Bytes) → Option Bytes
  | [], s => some s
  | _ :: _, [] => none
  | a :: p, b :: s => if a == b then dropPrefix? p s else none

def startsWith (p s : Bytes) : Bool := (dropPrefix? p s).isSome

def startsWithNoCase (p s : Bytes) : Bool := startsWith (lower p) (lower (s.take p.length))

def equalsNoCase (a b : Bytes) : Bool := lower a == lower b

def find? (p : Bytes) : Bytes → Option Nat
  | [] => if p.isEmpty then some 0 else none
  | b :: s => if startsWith p (b :: s) then some 0 else (find? p s).map (· + 1)

def contains (p s : Bytes) : Bool := (find? p s).isSome

def findByte? (p : UInt8 → Bool) : Bytes → Option Nat
  | [] => none
  | b :: s => if p b then some 0 else (findByte? p s).map (· + 1)

/-- Cuts at the first byte of a class, which is dropped; the second part is absent if there is none.
-/
def cutAt (p : UInt8 → Bool) : Bytes → Bytes × Option Bytes
  | [] => ([], none)
  | b :: s =>
    if p b then ([], some s)
    else
      let (front, back) := cutAt p s
      (b :: front, back)

/-- The pieces between separators, empty ones too: one more than there are separators. -/
def splitByte (sep : UInt8) : Bytes → List Bytes
  | [] => [[]]
  | b :: s =>
    if b == sep then [] :: splitByte sep s
    else
      match splitByte sep s with
      | [] => [[b]]
      | piece :: more => (b :: piece) :: more

/-- The order of texts byte by byte, a beginning before what it is the beginning of. -/
def compare : Bytes → Bytes → Ordering
  | [], [] => .eq
  | [], _ :: _ => .lt
  | _ :: _, [] => .gt
  | a :: s, b :: t => if a < b then .lt else if b < a then .gt else compare s t

def le (a b : Bytes) : Bool := compare a b != .gt

/-- The texts in a row with the separator between them. -/
def join (sep : Bytes) : List Bytes → Bytes
  | [] => []
  | [s] => s
  | s :: more => s ++ sep ++ join sep more

end Bytes

end TemplateKit
