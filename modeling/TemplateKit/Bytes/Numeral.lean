import TemplateKit.Bytes.Basic

/-!
# Numerals

Writing integers in base ten and reading them back. Reading skips blanks, takes one sign, then the
longest run of digits, and limits the result to 64 bits; whatever follows is left over. The base
is ten, or is told by the numeral itself: `0x` announces sixteen and a leading `0` eight.
-/

namespace TemplateKit.Numeral

/-- The digits of `n` in base ten, in front of `tail`; `fuel` bounds their number. -/
def digitsOnto : (fuel n : Nat) → Bytes → Bytes
  | 0, _, tail => tail
  | fuel + 1, n, tail =>
    let tail := Ascii.hexDigit (n % 10) :: tail
    if n < 10 then tail else digitsOnto fuel (n / 10) tail

def ofNat (n : Nat) : Bytes := digitsOnto (n + 1) n []

def ofInt : Int → Bytes
  | .ofNat n => ofNat n
  | .negSucc n => '-'.toUInt8 :: ofNat (n + 1)

def ofNatHex (n : Nat) : Bytes := (Nat.toDigits 16 n).map Char.toUInt8

def padded (width n : Nat) : Bytes :=
  let digits := ofNat n
  List.replicate (width - digits.length) '0'.toUInt8 ++ digits

def paddedInt (width : Nat) : Int → Bytes
  | .ofNat n => padded width n
  | .negSucc n => '-'.toUInt8 :: padded (width - 1) (n + 1)

def octal (b : UInt8) : Bytes :=
  [b.toNat / 64, b.toNat / 8 % 8, b.toNat % 8].map Ascii.hexDigit

def minInt64 : Int := -0x8000000000000000

def maxInt64 : Int := 0x7FFFFFFFFFFFFFFF

def clamp (n : Int) : Int64 := Int64.ofInt (max minInt64 (min maxInt64 n))

/-- The value of the leading digits of `s` in `base`, on top of `acc`, and what follows them. -/
def readDigits (base acc : Nat) : Bytes → Nat × Bytes
  | [] => (acc, [])
  | b :: s =>
    match Ascii.digitValue? b with
    | some d => if d < base then readDigits base (acc * base + d) s else (acc, b :: s)
    | none => (acc, b :: s)

def startsWithDigit (base : Nat) : Bytes → Bool
  | [] => false
  | b :: _ => (Ascii.digitValue? b).any (· < base)

/-- The digits that count and their base, when the numeral itself tells the base. -/
def announcedBase : Bytes → Nat × Bytes
  | 48 :: x :: s =>
    if (x == 'x' || x == 'X') && startsWithDigit 16 s then (16, s)
    else (8, 48 :: x :: s)
  | 48 :: s => (8, 48 :: s)
  | s => (10, s)

/-- An integer at the front of `s` and what follows it; nothing without a digit. -/
def read? (announced : Bool) (s : Bytes) : Option (Int64 × Bytes) :=
  let s := s.stripLeft
  let (negative, s) :=
    match s with
    | 45 :: s => (true, s)
    | 43 :: s => (false, s)
    | s => (false, s)
  let (base, s) := if announced then announcedBase s else (10, s)
  if startsWithDigit base s then
    let (n, rest) := readDigits base 0 s
    some (clamp (if negative then -(n : Int) else n), rest)
  else none

def toInt64 (s : Bytes) : Int64 := ((read? false s).map (·.1)).getD 0

def toInt64Announced (s : Bytes) : Int64 := ((read? true s).map (·.1)).getD 0

/-- The hexadecimal integer at the front of `s`, zero without one; it may be announced. -/
def toInt64Hex (s : Bytes) : Int64 :=
  let s := s.stripLeft
  let negative := s.head? = some '-'.toUInt8
  let s := if negative || s.head? = some '+'.toUInt8 then s.drop 1 else s
  let s := match s with
    | 48 :: x :: rest =>
      if (x == 'x' || x == 'X') && startsWithDigit 16 rest then rest else 48 :: x :: rest
    | s => s
  let (n, _) := readDigits 16 0 s
  clamp (if negative then -(n : Int) else n)

def toInt32 (s : Bytes) : Int32 := (toInt64 s).toInt32

end TemplateKit.Numeral
