import TemplateKit.Escape.Html
import TemplateKit.Escape.Marked

/-!
# Escaping and checking URLs

Reserved bytes become a percent sign and two hexadecimal digits. A URL is safe when it is relative
or has one of a few known schemes.
-/

namespace TemplateKit.Url

def percent (b : UInt8) : Bytes := '%' :: Ascii.hexPair b

def queryReserved : Bytes := "$&+,/:;=?@ \"<>#%\x7b\x7d|\\^~[]`'"

/-- What ends or breaks a URL inside a style sheet. -/
def styleReserved : Bytes := "\n\r\"'()*<>\\"

/-- Which bytes are written with a percent sign. -/
structure Rule where
  reserved : Bytes
  escapesUnprintable : Bool
  spaceAsPlus : Bool

/-- A byte by a rule, where the caller may name `other` bytes to be escaped. -/
def Rule.escapeByte (rule : Rule) (other : Bytes) (b : UInt8) : Bytes :=
  if rule.spaceAsPlus && b == 32 && rule.reserved.elem b then ['+'.toUInt8]
  else if rule.reserved.elem b || (rule.escapesUnprintable && !Ascii.isPrint b) || other.elem b then
    percent b
  else [b]

def Rule.escape (rule : Rule) (other s : Bytes) : Bytes := s.flatMap (rule.escapeByte other)

def query : Rule := ⟨queryReserved, true, true⟩

def queryStrict : Rule := ⟨queryReserved, true, false⟩

def style : Rule := ⟨styleReserved, false, true⟩

/-- Undoes the escaping of query parts; a percent sign without two hexadecimal digits stands for
itself. -/
def unescape : Bytes → Bytes
  | b :: h :: l :: s =>
    if b == '+' then 32 :: unescape (h :: l :: s)
    else if b == '%' && Ascii.isHexDigit h && Ascii.isHexDigit l then
      Marked.hexByte h l :: unescape s
    else b :: unescape (h :: l :: s)
  | b :: s => (if b == '+' then 32 else b) :: unescape s
  | [] => []

def safeSchemes : List Bytes := ["http://", "https://", "ftp://", "mailto:"]

/-- A URL without a scheme, or with a safe one. A colon behind a slash or a question mark ends no
scheme. -/
def isSafe (s : Bytes) : Bool :=
  let start := s.takeWhile fun b => b != '/'.toUInt8 && b != '?'.toUInt8
  !start.elem ':'.toUInt8 || safeSchemes.any (Bytes.startsWithNoCase · s.stripLeft)

def validate (escape : Bytes → Bytes) (s : Bytes) : Bytes := if isSafe s then escape s else "#"

def validateHtml (s : Bytes) : Bytes := validate Html.escape s

def validateStyle (s : Bytes) : Bytes := validate (style.escape []) s

end TemplateKit.Url
