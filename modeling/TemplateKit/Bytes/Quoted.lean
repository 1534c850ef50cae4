import TemplateKit.Bytes.Numeral

/-!
# Quoted texts

A quoted text stands between double quotes. A backslash introduces a newline, tab or carriage
return, a quote or a backslash, or three octal digits for a byte that cannot be printed.
-/

namespace TemplateKit.Quoted

def quote : UInt8 := '"'

def backslash : UInt8 := '\\'

/-- A byte in quotes: by name, behind a backslash, as it is, or with its octal digits. -/
def encodeByte (b : UInt8) : Bytes :=
  if b == 10 then "\\n"
  else if b == 9 then "\\t"
  else if b == 13 then "\\r"
  else if b == quote || b == backslash then [backslash, b]
  else if Ascii.isPrint b then [b]
  else backslash :: Numeral.octal b

def encode (s : Bytes) : Bytes := quote :: s.flatMap encodeByte ++ [quote]

def encodeOption : Option Bytes → Bytes
  | some s => encode s
  | none => "NULL"

def octalByte (digits : Bytes) : UInt8 := digits.foldl (fun acc d => acc * 8 + (d - 48)) 0

/-- Reads up to the closing quote: the text and what follows the quote, nothing without a closing
quote. -/
def decode : (fuel : Nat) → Bytes → Option (Bytes × Bytes)
  | 0, _ => none
  | _ + 1, [] => none
  | fuel + 1, b :: s =>
    if b == quote then some ([], s)
    else if b == backslash then
      let digits := (s.take 3).takeWhile Ascii.isDigit
      if digits.isEmpty then
        match s with
        | [] => none
        | c :: s =>
          let c := if c == 'n' then 10 else if c == 't' then 9
            else if c == 'r' then 13 else c
          (decode fuel s).map fun (text, rest) => (c :: text, rest)
      else
        (decode fuel (s.drop digits.length)).map fun (text, rest) =>
          (octalByte digits :: text, rest)
    else (decode fuel s).map fun (text, rest) => (b :: text, rest)

end TemplateKit.Quoted
