import TemplateKit.Escape.Script
import TemplateKit.Escape.Url
import TemplateKit.Failure

/-!
# Escape modes

The mode in force decides how a value is escaped before it is written.
-/

namespace TemplateKit

/-- How values are escaped when they are put into a page. -/
inductive EscapeMode where
  | undefined
  | none
  | html
  | script
  | url
deriving DecidableEq, Repr, Inhabited

namespace EscapeMode

/-- The mode as a bit, zero while it is undefined. -/
def code : EscapeMode → Int
  | undefined => 0
  | none => 1
  | html => 2
  | script => 4
  | url => 8

def named : List (Bytes × EscapeMode) :=
  [("undef", undefined), ("none", none), ("html", html), ("js", script),
    ("url", url)]

/-- Escaping by number. The bits for a URL, a script and HTML count in this order; a number with
none of them is refused, apart from the two that stand for no escaping. -/
def escapeByCode (code : Int) (s : Bytes) : Except Failure Bytes :=
  let has (bit : Int) := (code / bit) % 2 = 1
  if code = 1 ∨ code = 32 then .ok s
  else if has 8 then .ok (Url.query.escape [] s)
  else if has 4 then .ok (Script.escape s)
  else if has 2 then .ok (Html.escape s)
  else .error (.raise .assertion ("unknown escape context supplied: " ++ Numeral.ofInt code))

def escape (m : EscapeMode) (s : Bytes) : Except Failure Bytes := escapeByCode m.code s

end EscapeMode

end TemplateKit
