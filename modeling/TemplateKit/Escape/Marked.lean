import TemplateKit.Bytes.Basic

/-!
# Escaping with a mark

A byte is written as a mark and two hexadecimal digits when it is the mark itself or one of a list
of bytes. Only ASCII bytes are ever recognised as the mark or as listed.
-/

namespace TemplateKit.Marked

def isMark (wanted b : UInt8) : Bool := wanted < 128 && wanted == b

def isEscaped (mark : UInt8) (listed : Bytes) (b : UInt8) : Bool :=
  isMark mark b || listed.any (isMark · b)

def escape (mark : UInt8) (listed : Bytes) (s : Bytes) : Bytes :=
  s.flatMap fun b => if isEscaped mark listed b then mark :: Ascii.hexPair b else [b]

def hexByte (a b : UInt8) : UInt8 :=
  (((Ascii.digitValue? a).getD 0) * 16 + (Ascii.digitValue? b).getD 0).toUInt8

/-- A mark that is not followed by two hexadecimal digits stands for itself. -/
def unescape (mark : UInt8) : Bytes → Bytes
  | b :: h :: l :: s =>
    if isMark mark b && Ascii.isHexDigit h && Ascii.isHexDigit l then
      hexByte h l :: unescape mark s
    else b :: unescape mark (h :: l :: s)
  | b :: s => b :: unescape mark s
  | [] => []

end TemplateKit.Marked
