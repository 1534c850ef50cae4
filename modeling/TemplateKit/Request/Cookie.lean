import TemplateKit.Data.Lookup

/-!
# Cookies

A cookie header is a list of names and values with equals signs between them and semicolons behind
them. The replies that set or clear a cookie are headers too.
-/

namespace TemplateKit.Cookie

def inName (b : UInt8) : Bool := b != '=' && b != ';'

def inValue (b : UInt8) : Bool := b != ';'

/-- The names and values as they stand; `fuel` bounds their number. -/
def split : (fuel : Nat) → Bytes → List (Bytes × Bytes)
  | 0, _ => []
  | fuel + 1, s =>
    if s.isEmpty then []
    else
      let name := s.takeWhile inName
      match s.dropWhile inName with
      | [] => [(name, [])]
      | b :: rest =>
        if b == '=' then
          (name, rest.takeWhile inValue) :: split fuel ((rest.dropWhile inValue).drop 1)
        else (name, []) :: split fuel rest

/-- The cookies of a header, without the blanks around names and values; a cookie has both. -/
def parse (header : Bytes) : List (Bytes × Bytes) :=
  ((split header.length header).map fun (name, value) => (name.strip, value.strip)).filter
    fun (name, value) =>
    !name.isEmpty && !value.isEmpty

/-- The first domain listed that the host, up to its colon, ends with. -/
def authority? (host : Bytes) (domains : List Bytes) : Option Bytes :=
  let host := host.takeWhile (· != ':'.toUInt8)
  domains.find? fun d => d.length ≤ host.length &&
  Bytes.equalsNoCase (host.drop (host.length - d.length)) d

/-- A cookie that a client is to keep. -/
structure Setting where
  name : Bytes
  value : Bytes
  path : Bytes
  expires : Option Bytes
  domain : Option Bytes
  secure : Bool

/-- The header that sets a cookie. -/
def Setting.header (c : Setting) : Bytes :=
  ascii "Set-Cookie: " ++ c.name ++ ascii "=" ++ c.value ++ ascii "; path=" ++ c.path ++
    (match c.expires with
      | some time => ascii "; expires=" ++ time
      | none => []) ++
    (match c.domain with
      | some domain => ascii "; domain=" ++ domain
      | none => []) ++
    (if c.secure then ascii "; secure" else []) ++ ascii "\r\n"

/-- The header that makes a client forget a cookie of one domain. -/
def clearing (name path : Bytes) (domain : Option Bytes) : Bytes :=
  "Set-Cookie: " ++ name ++ "=; path=" ++ path ++ "; " ++
    (match domain with
      | some domain => "domain=" ++ domain ++ ";"
      | none => []) ++
    "expires=Thursday, 01-Jan-1970 00:00:00 GMT\r\n"

/-- The headers that make a client forget a cookie, with and without a dot in front of the domain
and without a domain. -/
def clearingAll (name path : Bytes) (domain : Option Bytes) : Bytes :=
  (match domain with
    | some d =>
      (if d.head? = some '.'.toUInt8 then clearing name path (some (d.drop 1)) else []) ++
        clearing name path (some d)
    | none => []) ++
    clearing name path none

end TemplateKit.Cookie
