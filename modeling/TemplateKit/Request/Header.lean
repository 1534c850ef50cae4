import TemplateKit.Request.Environment

/-!
# The headers of a request

A header is stored below `HTTP` under its name in mixed case: letters and digits only, and a capital
wherever something else was left out. The host is stored only if it looks like one, and no other
header can take its name.
-/

namespace TemplateKit.Header

def lead : Bytes := "HTTP_"

/-- Letters and digits; the first one behind anything else is a capital. -/
def mixedCase (capital : Bool) : Bytes → Bytes
  | [] => []
  | b :: s =>
    if Ascii.isAlnum b then (if capital then Ascii.toUpper b else Ascii.toLower b) ::
      mixedCase false s
    else mixedCase true s

def longestName : Nat := 250

def host : Bytes := "Host"

/-- The name of a header in the data tree, empty for a header that has none. -/
def treeName (name : Bytes) : Bytes :=
  let out := (mixedCase true name).take longestName
  if Bytes.equalsNoCase out host && !Bytes.equalsNoCase name host then [] else out

def inHost (b : UInt8) : Bool := Ascii.isAlnum b || (ascii "_-.:").elem b

def isHost (value : Bytes) : Bool := !value.isEmpty && value.all inHost

/-- The name and value that a variable of the environment gives to the tree, if it is a header. -/
def setting? (p : Bytes × Bytes) : Option (Bytes × Bytes) := do
  let name ← Bytes.dropPrefix? lead p.1
  let treeName := treeName name
  if treeName.isEmpty || (treeName == host && !isHost p.2) then none
  else some ("HTTP." ++ treeName, p.2)

def settings (e : Environment) : List (Bytes × Bytes) :=
  ((e.get? (ascii "HTTP_SOAPACTION")).map fun v => (ascii "HTTP.Soap.Action", v)).toList ++
    e.filterMap setting?

end TemplateKit.Header
