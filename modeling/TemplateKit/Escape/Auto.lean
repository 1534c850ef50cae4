import TemplateKit.Escape.Url
import TemplateKit.Failure

/-!
# Escaping by place

A parser of the markup written so far tells at which place the next value will stand: in text, in a
tag, in the value of an attribute, in a script or a style sheet. The place decides how the value is
escaped.
-/

namespace TemplateKit

/-- The states of the markup parser, in the order of their numbers. -/
inductive MarkupState where
  | text
  | tag
  | attribute
  | value
  | comment
  | scriptFile
  | styleFile
  | error
deriving DecidableEq, Repr

/-- Where in a page a value is put in, as the parser of the page tells it. -/
structure MarkupPlace where
  state : MarkupState
  /-- The kind of the attribute: regular is 1, then URL, script and style. -/
  attributeType : Int
  attributeQuoted : Bool
  valueIndex : Int
  inScript : Bool
  scriptQuoted : Bool
  parseError : Bool
  tag : Option Bytes
deriving DecidableEq, Repr

/-- What a page is taken for when its parser starts. -/
inductive MarkupMode where
  | unchanged
  | html
  | script
  | style
deriving DecidableEq, Repr

namespace MarkupMode

/-- The number that the parser knows the mode by. -/
def code : MarkupMode → Int
  | unchanged => -1
  | html => 0
  | script => 1
  | style => 2

/-- The modes of the content types that are known. -/
def ofContentType : List (Bytes × MarkupMode) :=
  [("none", unchanged), ("text/html", html), ("text/plain", html),
    ("application/javascript", script), ("application/json", script),
    ("text/javascript", script), ("text/css", style)]

end MarkupMode

/-- Why a value could not be escaped. -/
inductive AutoFault where
  | missingText
  | missingType
  | unknownAttribute (type : Int)
  | unknownContentType (type : Bytes)
  | unparsable (text : Bytes)
  | unparsableStart (length : Nat) (text : Bytes)

namespace AutoFault

/-- The text of the fault. -/
def message : AutoFault → Bytes
  | missingText => "str is NULL"
  | missingType => "type is NULL"
  | unknownAttribute type =>
    "Unknown attr type received from HTML parser : " ++ Numeral.ofInt type ++ "\n"
  | unknownContentType type => "unknown content type supplied: " ++ type
  | unparsable text => "HTML Parser failed to parse : " ++ text
  | unparsableStart length text =>
    "HTML Parser failed to parse string(length " ++ Numeral.ofNat length ++
      ") starting with: " ++ text.take 200

def failure (f : AutoFault) : Failure := .raise .assertion f.message

end AutoFault

namespace Auto

/-- A text that was escaped, and whether anything in it had to be. -/
structure Escaped where
  text : Bytes
  changed : Bool
deriving DecidableEq, Repr

def bytewise (meant : UInt8 → Bool) (escape : UInt8 → Bytes) (s : Bytes) : Escaped :=
  ⟨s.flatMap fun b => if meant b then escape b else [b], s.any meant⟩

def only (allowed : UInt8 → Bool) (s : Bytes) : Escaped := ⟨s.filter allowed, !s.all allowed⟩

/-- The entity of a character; a carriage return becomes a blank that does not break. -/
def entity (b : UInt8) : Bytes :=
  if b == '&' then "&amp;"
  else if b == '<' then "&lt;"
  else if b == '>' then "&gt;"
  else if b == '"' then "&quot;"
  else if b == '\'' then "&#39;"
  else if b == '=' then "&#61;"
  else "&nbsp;"

def html (s : Bytes) : Escaped := bytewise ((ascii "&<>\"'\r").elem ·) entity s

/-- Entities for attribute values without quotes, which lose their blanks and control characters. -/
def htmlUnquoted (s : Bytes) : Escaped :=
  let dropped (b : UInt8) := Ascii.isSpace b || (b != 0 && Ascii.isControl b)
  bytewise (fun b => dropped b || (ascii "&<>\"'=").elem b)
    (fun b => if dropped b then [] else entity b) s

def attributeValue (quoted : Bool) (s : Bytes) : Escaped :=
  if quoted then html s else htmlUnquoted s

def url (quoted : Bool) (s : Bytes) : Escaped :=
  if Url.isSafe s then attributeValue quoted s else ⟨"#", true⟩

/-- May the text stand in a script without quotes? A truth value or a number may. -/
def isNumber (s : Bytes) : Bool :=
  s == "true" || s == "false" ||
    match s with
    | 48 :: x :: d :: digits =>
      if x == 'x' || x == 'X' then (d :: digits).all Ascii.isHexDigit
      else (48 :: x :: d :: digits).all isNumberByte
    | s => s.all isNumberByte
where
  isNumberByte (b : UInt8) : Bool := Ascii.isDigit b || (ascii "+-.eE").elem b

def number (s : Bytes) : Escaped := if isNumber s then ⟨s, false⟩ else ⟨"null", true⟩

def style (quoted : Bool) (s : Bytes) : Escaped :=
  only (fun b => Ascii.isAlnum b || (b == 32 && quoted) || (ascii "_.,!#%-").elem b || b ≥ 128) s

/-- A text between the quotes of JSON; what has no short form is written with its code. -/
def json (s : Bytes) : Escaped :=
  bytewise (fun b => (ascii "&<>\"'/\\").elem b || b < 32)
    (fun b =>
      if b == '"' || b == '\\' || b == '/' then ['\\'.toUInt8, b]
      else if b == 8 then "\\b"
      else if b == 12 then "\\f"
      else if b == 10 then "\\n"
      else if b == 13 then "\\r"
      else if b == 9 then "\\t"
      else "\\u00" ++ Ascii.hexPair b) s

/-- String literals of scripts; in an attribute without quotes blanks and equals signs change too.
-/
def script (quoted : Bool) (s : Bytes) : Escaped :=
  let special := if quoted then ascii "&<>\"'/\\;" else ascii "&<>\"'/\\;= "
  bytewise (fun b => special.elem b || Ascii.isControl b) (fun b => ascii "\\x" ++
    Ascii.hexPair b) s

def name (s : Bytes) : Escaped :=
  only (fun b => Ascii.isAlnum b || (ascii ":_-").elem b) s

end Auto

/-- The automatic escaper: the place it has come to and whether the output is data notation. -/
structure AutoEscaper where
  place : MarkupPlace
  isJson : Bool

namespace AutoEscaper

/-- Escapes a value for the place where the page stands now. -/
def escape (c : AutoEscaper) (s : Bytes) : Except AutoFault Auto.Escaped :=
  let p := c.place
  match p.state with
  | .attribute | .tag => .ok (Auto.name s)
  | .value =>
    if p.attributeType = 1 then .ok (Auto.attributeValue p.attributeQuoted s)
    else if p.attributeType = 2 then
      .ok (if p.valueIndex = 0 then Auto.url p.attributeQuoted s
        else Auto.attributeValue p.attributeQuoted s)
    else if p.attributeType = 3 then
      .ok (if p.scriptQuoted then Auto.script p.attributeQuoted s else Auto.number s)
    else if p.attributeType = 4 then .ok (Auto.style p.attributeQuoted s)
    else .error (.unknownAttribute p.attributeType)
  | state =>
    if state = .styleFile ∨ (state = .text ∧ p.tag = some (ascii "style")) then
      .ok (Auto.style true s)
    else if p.inScript then
      .ok (if p.scriptQuoted then (if c.isJson then Auto.json s else Auto.script true s)
        else Auto.number s)
    else .ok (Auto.html s)

def parses (c : AutoEscaper) : Bool := !c.place.parseError && c.place.state != .error

/-- Tells the markup parser of a value that was written; only values inside of tags matter. -/
def parseValue (c : AutoEscaper) (s : Bytes) : Except AutoFault Unit :=
  if (c.place.state = .value ∨ c.place.state = .attribute ∨ c.place.state = .tag) ∧ !c.parses then
    .error (.unparsable s)
  else .ok ()

/-- Passes the text of a template to the parser; only its refusal is told here. -/
def parseLiteral (c : AutoEscaper) (s : Bytes) : Except AutoFault Unit :=
  if c.parses then .ok ()
  else if s.length < 200 then .error (.unparsable s)
  else .error (.unparsableStart s.length s)

/-- Declares the content type: the new escaper and the mode that the markup parser is reset to. -/
def setContentType (c : AutoEscaper) (type : Bytes) : Except AutoFault (AutoEscaper × MarkupMode) :=
  match MarkupMode.ofContentType.find? (·.1 == type) with
  | some (_, mode) => .ok ({ c with isJson := type == "application/json" }, mode)
  | none => .error (.unknownContentType type)

end AutoEscaper

end TemplateKit
