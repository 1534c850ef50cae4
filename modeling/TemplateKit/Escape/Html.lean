import TemplateKit.Bytes.Basic

/-!
# Escaping for HTML

The five characters that HTML gives a meaning become entities; carriage returns are dropped.
-/

namespace TemplateKit.Html

/-- What stands for a byte in a page. Carriage returns are left out. -/
def escapeByte (b : UInt8) : Bytes :=
  if b == '&' then "&amp;"
  else if b == '<' then "&lt;"
  else if b == '>' then "&gt;"
  else if b == '"' then "&quot;"
  else if b == '\'' then "&#39;"
  else if b == 13 then []
  else [b]

def escape (s : Bytes) : Bytes := s.flatMap escapeByte

end TemplateKit.Html
