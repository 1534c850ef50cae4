import TemplateKit.Bytes.Basic

/-!
# Escaping for scripts

Quotes, backslashes, control characters and whatever HTML could act on are written as escape
sequences of the script language, by their code.
-/

namespace TemplateKit.Script

def isEscaped (b : UInt8) : Bool := (ascii "/\"'\\><&;").elem b || b < 32

def escapeByte (lead : Bytes) (b : UInt8) : Bytes :=
  if isEscaped b then lead ++ Ascii.hexPair b else [b]

def escape (s : Bytes) : Bytes := s.flatMap (escapeByte "\\x")

def escapeJson (s : Bytes) : Bytes := s.flatMap (escapeByte "\\u00")

end TemplateKit.Script
