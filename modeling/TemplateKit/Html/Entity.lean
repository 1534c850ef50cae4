import TemplateKit.Bytes.Numeral

/-!
# Character entities

The names of entities and the byte that each one stands for, in the Latin alphabet of eight bits.
-/

namespace TemplateKit.Entity

/-- The entities that are known by name, with their code in Latin 1. -/
def named : List (Bytes × UInt8) :=
  [(ascii "agrave", 0xe0), (ascii "aacute", 0xe1), (ascii "acirc", 0xe2), (ascii "atilde", 0xe3),
    (ascii "auml", 0xe4), (ascii "aring", 0xe5), (ascii "aelig", 0xe6), (ascii "amp", '&'.toUInt8),
    (ascii "ccedil", 0xe7), (ascii "egrave", 0xe8), (ascii "eacute", 0xe9), (ascii "ecirc", 0xea),
    (ascii "euml", 0xeb), (ascii "eth", 0xf0), (ascii "igrave", 0xec), (ascii "iacute", 0xed),
    (ascii "icirc", 0xee), (ascii "iuml", 0xef), (ascii "gt", '>'.toUInt8),
    (ascii "lt", '<'.toUInt8),
    (ascii "ntilde", 0xf1), (ascii "nbsp", ' '.toUInt8), (ascii "ograve", 0xf2),
    (ascii "oacute", 0xf3),
    (ascii "ocirc", 0xf4), (ascii "otilde", 0xf5), (ascii "ouml", 0xf6), (ascii "oslash", 0xf8),
    (ascii "quot", '"'.toUInt8), (ascii "szlig", 0xdf), (ascii "thorn", 0xfe),
    (ascii "ugrave", 0xf9),
    (ascii "uacute", 0xfa), (ascii "ucirc", 0xfb), (ascii "uuml", 0xfc), (ascii "yacute", 0xfd)]

def lowByte (n : Int64) : UInt8 := (n.toInt % 256).toNat.toUInt8

/-- The code of an entity, from its name or its number; zero for one that is not known. -/
def code (name : Bytes) : UInt8 :=
  match name with
  | 35 :: 120 :: digits => lowByte (Numeral.toInt64Hex digits)
  | 35 :: digits => lowByte (Numeral.toInt64 digits)
  | name => ((named.find? (·.1 == name)).map (·.2)).getD 0

/-- What is written in place of an entity; one that is not known is dropped. -/
def expand (name : Bytes) : Bytes :=
  if code name != 0 then [code name] else if name == "copy" then "(C)" else []

end TemplateKit.Entity
