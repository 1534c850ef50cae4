import TemplateKit.Bytes.Numeral

/-!
# Formats

A format is a text with places to fill in. A place is a percent sign, some flags, a width, a
precision behind a dot and the byte that tells what goes there: `s` the value, which the precision
cuts and the width pads with blanks, and `%` a percent sign. Any other place is shown as it is
written. A format that ends within a place cannot be filled in.
-/

namespace TemplateKit.Format

/-- A place in a format, from the percent sign to the letter of its kind. -/
structure Slot where
  flags : Bytes
  width : Nat
  precision : Option Nat
  kind : UInt8
deriving DecidableEq, Repr

namespace Slot

def isFlag (b : UInt8) : Bool := (ascii "-+ #0'I").elem b

/-- The bytes that tell the size of a value, which matters to numbers only. -/
def isSize (b : UInt8) : Bool := (ascii "hlLqzZtj").elem b

def number (s : Bytes) : Nat × Bytes := Numeral.readDigits 10 0 s

/-- Passes over the number of the value, of which there is only one. -/
def dropIndex (s : Bytes) : Bytes :=
  match number s with
  | (1, 36 :: rest) => rest
  | _ => s

/-- The slot behind a percent sign and what follows it, none where the format ends in it. -/
def read? (s : Bytes) : Option (Slot × Bytes) :=
  let s := dropIndex s
  let flags := s.takeWhile isFlag
  let (width, s) := number (s.drop flags.length)
  let (precision, s) := match s with
    | 46 :: s =>
      let (n, s) := number s
      (some n, s)
    | s => (none, s)
  match s.dropWhile isSize with
  | [] => none
  | kind :: rest => some (⟨flags, width, precision, kind⟩, rest)

def hasFlag (slot : Slot) (c : Char) : Bool := slot.flags.elem c.toUInt8

/-- A text cut to the precision and filled with blanks to the width. -/
def pad (slot : Slot) (value : Bytes) : Bytes :=
  let value := match slot.precision with
    | some n => value.take n
    | none => value
  let blanks := List.replicate (slot.width - value.length) ' '.toUInt8
  if slot.hasFlag '-' then value ++ blanks else blanks ++ value

/-- A place of an unknown kind, with its flags in a fixed order. -/
def shown (slot : Slot) : Bytes :=
  let flag (c : Char) : Bytes := if slot.hasFlag c then [c.toUInt8] else []
  "%" ++ flag '#' ++ flag '\'' ++ (if slot.hasFlag '+' then flag '+' else flag ' ') ++ flag '-' ++
    (if slot.hasFlag '-' then [] else flag '0') ++ flag 'I' ++
    (if slot.width = 0 then [] else Numeral.ofNat slot.width) ++
    (match slot.precision with
      | some n => "." ++ Numeral.ofNat n
      | none => []) ++ [slot.kind]

/-- What stands for a slot. Only texts are put in; other kinds are shown as they were written. -/
def fill (slot : Slot) (value : Bytes) : Bytes :=
  if slot.kind == 's' then slot.pad value
  else if slot.kind == '%' then "%"
  else slot.shown

end Slot

/-- Fills a value into a format; `fuel` bounds the length of the format. -/
def fillFrom (value : Bytes) : (fuel : Nat) → Bytes → Option Bytes
  | 0, _ => none
  | _ + 1, [] => some []
  | fuel + 1, b :: s =>
    if b == '%' then
      match Slot.read? s with
      | some (slot, rest) => (slot.fill value ++ ·) <$> fillFrom value fuel rest
      | none => none
    else (b :: ·) <$> fillFrom value fuel s

def fill? (format value : Bytes) : Option Bytes := fillFrom value (format.length + 1) format

end TemplateKit.Format
