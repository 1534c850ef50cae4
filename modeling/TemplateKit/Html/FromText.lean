import TemplateKit.Bytes.Format
import TemplateKit.Escape.Url
import TemplateKit.Failure
import TemplateKit.Html.Link

/-!
# Pages from plain text

Special characters are escaped, links are marked up, and line ends may become line breaks. Text that
looks like a drawing is set in a fixed width.

## Implementation notes

Blanks that may still be dropped are counted and not written. What becomes of them is settled where
the scanner stops next: at a special character, at a link, or at the end of the text.
-/

namespace TemplateKit

/-- How a text is made a page. -/
structure TextOptions where
  /-- Links lead to this address, a format into which the URL is filled. -/
  bounceUrl : Option Bytes := none
  urlClass : Option Bytes := none
  urlTarget : Option Bytes := none
  mailClass : Option Bytes := none
  linkName : Option Bytes := none
  /-- Are blanks kept? Then a blank is held back until it is known what follows it. -/
  keepsBlanks : Bool := false
  breaksLines : Bool := false
  examines : Bool := false

namespace TextOptions

def standard : TextOptions :=
  { urlTarget := some (ascii "_blank"), breaksLines := true, examines := true }

end TextOptions

namespace Html

/-- What the look of a text depends on, as far as it can be told. -/
inductive Formatting where
  | none
  | blanks
  | drawing
deriving DecidableEq, Repr

/-- What was counted so far in a text. -/
structure Layout where
  blanks : Int := 0
  lineEnds : Nat := 0
  marks : Nat := 0

/-- Whether a text depends on its blanks: it has a tab, a run of blanks or of line ends, or it has a
run of marks as drawings have. The blank behind a full stop counts for nothing. -/
def formatting (previous : UInt8) (n : Layout) : Bytes → Formatting
  | [] => .none
  | b :: s =>
    if b == '\t' then .blanks
    else if b == ' ' then
      formatting b { n with blanks := if previous == '.' then n.blanks else n.blanks + 1 } s
    else if b == '\n' then formatting b { n with blanks := 0, lineEnds := n.lineEnds + 1 } s
    else if (ascii "/\\<>:[]!@#$%^&*()|").elem b then
      if n.marks ≥ 3 then .drawing else formatting b { n with marks := n.marks + 1 } s
    else if b == '\r' then formatting b n s
    else if n.lineEnds > 2 || n.blanks > 2 then .blanks
    else formatting b {} s

/-- What is written for a byte, blanks that are kept apart. A line end becomes a break or, if it
ends an empty line, a paragraph. -/
def fromByte (opts : TextOptions) (previous b : UInt8) : Bytes :=
  if b == '&' then "&amp;"
  else if b == '<' then "&lt;"
  else if b == '>' then "&gt;"
  else if b == '\n' then
    if opts.breaksLines then "<br/>\n"
    else if previous == '\n' then "<p/>\n"
    else [b]
  else if b == '\r' then []
  else [b]

/-- The bytes that the scanner stops at. -/
def isSpecial (b : UInt8) : Bool := (ascii "&<>\r\n ").elem b

/-- The blanks that were held back: all but the last of them become entities. -/
def heldBlanks : (held : Nat) → Bytes
  | 0 => []
  | n + 1 => (List.replicate n (ascii "&nbsp;")).flatten ++ " "

/-- What is written for a byte that the scanner stops at, and how many blanks are held back then.
Those in front of a line end are dropped. -/
def fromSpecial (opts : TextOptions) (held : Nat) (previous b : UInt8) : Bytes × Nat :=
  if b == ' ' then if opts.keepsBlanks then ([], held + 1) else (" ", held)
  else ((if b == '\n' then [] else heldBlanks held) ++ fromByte opts previous b, 0)

/-- Converts a text that has no link, behind the bytes that were passed since the last stop: what is
written, and how many blanks are held back at its end. At a stop the blanks held back so far and the
bytes passed are written before the byte itself is looked at. -/
def fromGap (opts : TextOptions) (held : Nat) (previous : UInt8) (passed : Bytes) :
    Bytes → Bytes × Nat
  | [] => if passed = [] then ([], held) else (heldBlanks held ++ passed, 0)
  | b :: s =>
    if isSpecial b then
      let (special, held') := fromSpecial opts 0 previous b
      let (more, last) := fromGap opts held' b [] s
      (heldBlanks held ++ passed ++ special ++ more, last)
    else fromGap opts held b (passed ++ [b]) s

def badFormat : Failure := .raise .memory "Unable to allocate memory to convert url"

/-- A value with what stands around it, nothing without a value. -/
def option (before : Bytes) (value : Option Bytes) (after : Bytes) : Bytes :=
  match value with
  | some v => before ++ v ++ after
  | none => []

/-- A link to a URL. A full stop or a comma at its end is no part of it. -/
def fromUrl (opts : TextOptions) (s : Bytes) : Except Failure Bytes := do
  let tail := if s.getLast? = some '.'.toUInt8 || s.getLast? = some ','.toUInt8 then 1 else 0
  let shown := s.take (s.length - tail)
  let url := if Bytes.startsWithNoCase Link.host s then "http://" ++ shown else shown
  let target ← match opts.bounceUrl with
    | some bounce =>
      ((Format.fill? bounce (Url.query.escape [] url)).map pure).getD (throw badFormat)
    | none => pure url
  return " <a " ++ option "class=" opts.urlClass " " ++
    option "target=\"" opts.urlTarget "\" " ++ "href=\"" ++ target ++ "\">" ++
    escape (opts.linkName.getD shown) ++ "</a>" ++ s.drop (s.length - tail)

def fromMail (opts : TextOptions) (s : Bytes) : Bytes :=
  "<a " ++ option "class=" opts.mailClass " " ++ "href=\"mailto:" ++ s ++
    "\">" ++ escape s ++ "</a>"

/-- A link in a page, by its kind. -/
def fromLink (opts : TextOptions) (kind : LinkKind) (s : Bytes) : Except Failure Bytes :=
  match kind with
  | .url => fromUrl opts s
  | .mail => return fromMail opts s

/-- The byte in front of an offset. -/
def byteBefore (s : Bytes) (offset : Nat) : UInt8 := if offset = 0 then 0 else s.getD (offset - 1) 0

/-- Converts a text from an offset on, with the links in it. The blanks that are held back in front
of a link are written, and those at the end of the text are not. -/
def fromPieces (opts : TextOptions) (s : Bytes) : (offset : Nat) → List Link → Except Failure Bytes
  | offset, [] => return (fromGap opts 0 (byteBefore s offset) [] (s.drop offset)).1
  | offset, l :: ls => do
    let link := (s.drop l.start).take (l.stop - l.start)
    let (front, held) :=
      fromGap opts 0 (byteBefore s offset) [] ((s.drop offset).take (l.start - offset))
    let shown ← fromLink opts l.kind link
    let more ← fromPieces opts s l.stop ls
    return front ++ heldBlanks held ++ shown ++ more

/-- Puts a byte behind what was kept, which is given backwards. A line that ends loses its last
blanks. -/
def keepLineByte (kept : Bytes) (b : UInt8) : Bytes :=
  if b == '\n' then b :: kept.dropWhile fun c => Ascii.isSpace c && c != '\n' else b :: kept

def dropLineBlanks (s : Bytes) : Bytes := (s.foldl keepLineByte []).reverse

section Search

variable (search : LinkKind → Bytes → Option (Nat × Nat))

/-- Converts a text with the links that the search finds. -/
def convert (opts : TextOptions) (s : Bytes) : Except Failure Bytes :=
  fromPieces opts s 0 (Link.all search s)

/-- The page of a text. A text that looks like a drawing keeps its blanks and line ends, and is set
in letters of one width. -/
def fromTextBy (opts : TextOptions) (s : Bytes) : Except Failure Bytes := do
  let found := if opts.examines then formatting 0 {} s else .none
  let opts := { opts with
    keepsBlanks := opts.keepsBlanks || found != .none
    breaksLines := opts.breaksLines || found == .drawing }
  let page ← convert search opts s
  return if found == .drawing then dropLineBlanks ("<tt>" ++ page ++ "</tt>") else page

end Search

def fromText (opts : TextOptions) (s : Bytes) : Except Failure Bytes := fromTextBy Link.find? opts s

/-- The page for a text with the standard options, which have no format to fail on. -/
def page (s : Bytes) : Bytes := (fromText .standard s).toOption.getD []

end Html

end TemplateKit
